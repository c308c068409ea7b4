import Mathlib.Data.List.Induction
import RucksFs.Client.Core
import RucksFs.Lib.Trace

/-!
# Flushes (`VfsCore::flush` and the set `written_inodes`)

`write` marks its inode, and `flush` sends nothing when there is no mark.  There is one mark per inode: every
handle of the file shares it, `flush` takes it away before the data server has answered, and `release` takes it
away without a word to the data server.

* `VfsState.notes` — the writes that a call has completed and the flushes that the data server has confirmed.
* `Unflushed` — some completed write of an inode waits for a flush.
* `flush_durable` — while no release and no failed flush hits an inode with such a write, every `flush` that
  answers `Ok` leaves none.
* `mark_lost` — the two ways to lose the mark.
-/

set_option autoImplicit false

namespace RucksFs

/-- What matters for durability. -/
inductive FlushNote where
  /-- A `write` has returned `Ok`. -/
  | written (inode : Nat)
  /-- A data server has answered `Ok` to `flush`. -/
  | flushed (inode : Nat)
  deriving DecidableEq

/-- A completed write of `i` has not been followed by a confirmed flush. -/
def Unflushed (i : Nat) (ns : List FlushNote) : Prop :=
  ∃ before after, ns = before ++ .written i :: after ∧ .flushed i ∉ after

theorem not_unflushed_nil (i : Nat) : ¬Unflushed i [] := by
  rintro ⟨before, after, h, -⟩
  cases before <;> cases h

/-- The write that waits is among the new notes, or none of them is a flush. -/
theorem Unflushed.append {i : Nat} {ns ms : List FlushNote} (h : Unflushed i (ns ++ ms)) :
    .written i ∈ ms ∨ Unflushed i ns ∧ .flushed i ∉ ms := by
  obtain ⟨before, after, heq, hnot⟩ := h
  rcases List.append_eq_append_iff.1 heq with ⟨as, rfl, rfl⟩ | ⟨bs, rfl, hms⟩
  · left
    simp
  · cases bs with
    | nil =>
        left
        rw [List.nil_append] at hms
        rw [← hms]
        exact List.mem_cons_self
    | cons b bs =>
        right
        rw [List.cons_append] at hms
        obtain ⟨rfl, rfl⟩ := List.cons.inj hms
        exact ⟨⟨before, bs, rfl, fun hmem => hnot (List.mem_append_left _ hmem)⟩,
          fun hmem => hnot (List.mem_append_right _ hmem)⟩

namespace VfsState

variable {δ : Type}

/-- A confirmed flush. -/
def flushedBy : ((e : VfsEff) × e.Res) → Option FlushNote
  | ⟨.data _ (.flush i), .ok _⟩ => some (.flushed i)
  | _ => none

/-- The write that a call has completed. -/
def writtenBy (S : VfsSetup δ) (c : VfsCall) (v : VfsState δ) : List FlushNote :=
  match c with
  | .write i off data flags => if (v.serve S (.write i off data flags)).1.isOk then [.written i] else []
  | _ => []

/-- What a call adds to the history. -/
def notes (S : VfsSetup δ) (c : VfsCall) (v : VfsState δ) : List FlushNote :=
  (Prog.performed (handle S) c.op.run v).filterMap flushedBy ++ v.writtenBy S c

/-- Serve a call, with its notes. -/
def noted (S : VfsSetup δ) (c : VfsCall) (v : VfsState δ) : List FlushNote × VfsState δ := (v.notes S c, (v.serve S c).2)

/-- The notes of a history. -/
def noteLog (es : List (VfsCall × List FlushNote)) : List FlushNote := es.flatMap Prod.snd

/-! ## Marks -/

/-- The operation does not take away the mark of `i`. -/
def KeepsMark {α : Type} (S : VfsSetup δ) (i : Nat) (x : VfsOp α) : Prop :=
  ∀ u : VfsState δ, u.core.writtenInodes i = true → (u.run S x).2.core.writtenInodes i = true

section

variable {S : VfsSetup δ} {i : Nat} {α β : Type}

theorem KeepsMark.bind {x : VfsOp α} {f : α → VfsOp β} (hx : KeepsMark S i x) (hf : ∀ a, KeepsMark S i (f a)) :
    KeepsMark S i (x >>= f) := by
  intro u hu
  have hu' := hx u hu
  rw [run_bind]
  rcases hr : u.run S x with ⟨r, u'⟩
  rw [hr] at hu'
  cases r with
  | error e => exact hu'
  | ok a => exact hf a u' hu'

theorem KeepsMark.pure (a : α) : KeepsMark S i (Pure.pure a) := fun _ hu => hu

theorem KeepsMark.metadata (m : MetadataOp) : KeepsMark S i (VfsOp.metadata m) := fun _ hu => hu

theorem KeepsMark.of_core {x : VfsOp α} (h : ∀ u : VfsState δ, (u.run S x).2.core = u.core) : KeepsMark S i x := by
  intro u hu
  rw [h]
  exact hu

theorem KeepsMark.deletePurged (l : List Inode) : KeepsMark S i (VfsOp.deletePurged l) := by
  apply KeepsMark.of_core
  intro u
  obtain ⟨data, h⟩ := run_deletePurged S l u
  rw [h]

/-- Marks are taken away one by one. -/
theorem KeepsMark.writtenRemove {j : Nat} (h : j ≠ i) : KeepsMark S i (VfsOp.eff (.writtenRemove j)) := by
  intro u hu
  show Function.update u.core.writtenInodes j false i = true
  rw [Function.update_of_ne h.symm]
  exact hu

theorem KeepsMark.writtenInsert (j : Nat) : KeepsMark S i (VfsOp.eff (.writtenInsert j)) := by
  intro u hu
  show Function.update u.core.writtenInodes j true i = true
  by_cases h : i = j
  · rw [h, Function.update_self]
  · rw [Function.update_of_ne h]
    exact hu

/-- Only `flush` and `release` of an inode take its mark away. -/
theorem keepsMark_call (c : VfsCall) (hflush : c ≠ .flush i) (hrelease : c ≠ .release i) : KeepsMark S i c.op := by
  cases c with
  | unlink p n => exact (KeepsMark.metadata (.unlink p n)).bind KeepsMark.deletePurged
  | rename p n np nn => exact (KeepsMark.metadata (.rename p n np nn)).bind KeepsMark.deletePurged
  | release j =>
      have hj : j ≠ i := fun h => hrelease (congrArg _ h)
      apply (KeepsMark.metadata (.release j)).bind
      intro purged
      apply (KeepsMark.deletePurged purged).bind
      intro _
      apply KeepsMark.bind (x := VfsOp.eff (.handleRemove j)) (fun _ hu => hu)
      intro _
      exact (KeepsMark.writtenRemove hj).bind fun _ => .pure ()
  | setattr j req =>
      apply (KeepsMark.metadata (.setattr j req)).bind
      intro resp
      cases hn : SetAttrResponse.needsTruncate resp with
      | none =>
          dsimp only
          exact .pure _
      | some size =>
          dsimp only
          apply KeepsMark.bind (x := VfsOp.resolveData j) (fun _ hu => hu)
          intro ds
          exact KeepsMark.bind (x := VfsOp.truncateData ds j size) (.of_core fun _ => rfl) fun _ => .pure _
  | openFile j flags =>
      apply (KeepsMark.metadata (.openFile j flags)).bind
      intro resp
      exact KeepsMark.bind (x := VfsOp.eff (.handleInsert _ _)) (fun _ hu => hu) fun _ => .pure _
  | createAndOpen p n mode uid gid flags =>
      apply (KeepsMark.metadata (.createAndOpen p n mode uid gid flags)).bind
      intro resp
      exact KeepsMark.bind (x := VfsOp.eff (.handleInsert _ _)) (fun _ hu => hu) fun _ => .pure _
  | read j off n =>
      exact KeepsMark.bind (x := VfsOp.resolveData j) (fun _ hu => hu) fun ds => .of_core fun _ => rfl
  | write j off data flags =>
      apply KeepsMark.bind (x := VfsOp.resolveData j) (fun _ hu => hu)
      intro ds
      apply KeepsMark.bind (x := VfsOp.writeData ds j off data) (.of_core fun _ => rfl)
      intro written
      apply KeepsMark.bind (x := VfsOp.eff .nowSecs) (fun _ hu => hu)
      intro ts
      apply (KeepsMark.metadata (.reportWrite j (off + written) ts)).bind
      intro _
      exact (KeepsMark.writtenInsert j).bind fun _ => .pure _
  | flush j =>
      have hj : j ≠ i := fun h => hflush (congrArg _ h)
      apply (KeepsMark.writtenRemove hj).bind
      intro wasWritten
      cases wasWritten with
      | false => exact .pure ()
      | true => exact KeepsMark.bind (x := VfsOp.resolveData j) (fun _ hu => hu) fun ds => .of_core fun _ => rfl
  | fsync j d =>
      exact KeepsMark.bind (x := VfsOp.resolveData j) (fun _ hu => hu) fun ds => .of_core fun _ => rfl
  | _ => exact .metadata _

/-- When the operation answers `Ok`, `i` is marked. -/
def MarksOnOk {α : Type} (S : VfsSetup δ) (i : Nat) (x : VfsOp α) : Prop :=
  ∀ u : VfsState δ, (u.run S x).1.isOk = true → (u.run S x).2.core.writtenInodes i = true

theorem MarksOnOk.after {x : VfsOp α} {f : α → VfsOp β} (hf : ∀ a, MarksOnOk S i (f a)) :
    MarksOnOk S i (x >>= f) := by
  intro u hok
  rw [run_bind] at hok ⊢
  rcases hr : u.run S x with ⟨r, u'⟩
  rw [hr] at hok
  cases r with
  | error e => cases hok
  | ok a => exact hf a u' hok

theorem marksOnOk_write (i off : Nat) (data : List Byte) (flags : Nat) :
    MarksOnOk S i (VfsCore.write i off data flags) := by
  apply MarksOnOk.after
  intro ds
  apply MarksOnOk.after
  intro written
  apply MarksOnOk.after
  intro ts
  apply MarksOnOk.after
  intro _ u _
  show Function.update u.core.writtenInodes i true i = true
  exact Function.update_self ..

/-! ## Calls -/

/-- Only a completed write is noted as one. -/
theorem written_mem_notes {c : VfsCall} {v : VfsState δ} (h : .written i ∈ v.notes S c) :
    (v.serve S c).2.core.writtenInodes i = true := by
  rcases List.mem_append.1 h with hflush | hwrite
  · obtain ⟨⟨e, r⟩, -, he⟩ := List.mem_filterMap.1 hflush
    unfold flushedBy at he
    split at he <;> cases he
  · cases c with
    | write j off data flags =>
        unfold writtenBy at hwrite
        dsimp only at hwrite
        split at hwrite
        · rename_i hok
          cases List.mem_singleton.1 hwrite
          exact marksOnOk_write _ off data flags v hok
        · cases hwrite
    | _ => cases hwrite

/-- The part of `flush` after the mark is gone. -/
def flushRest (i : Nat) (wasWritten : Bool) : VfsOp Unit := do
  if !wasWritten then return ()
  let ds ← VfsOp.resolveData i
  VfsOp.flushData ds i

theorem serve_flush (i : Nat) (v : VfsState δ) :
    (v.serve S (.flush i)).1 = (run S (flushRest i (v.core.writtenInodes i)) (handle S (.writtenRemove i) v).2).1 ∧
      v.notes S (.flush i) = (Prog.performed (handle S) (flushRest i (v.core.writtenInodes i)).run
        (handle S (.writtenRemove i) v).2).filterMap flushedBy := by
  refine ⟨rfl, ?_⟩
  unfold notes writtenBy
  rw [List.append_nil]
  rfl

/-- `flush` of a marked inode: the data server decides. -/
theorem flush_marked {v : VfsState δ} (hm : v.core.writtenInodes i = true) :
    (v.serve S (.flush i)).1 = (S.answer (v.core.resolveData S.reg i) (.flush i) v.data).1 ∧
      v.notes S (.flush i) =
        (flushedBy ⟨.data (v.core.resolveData S.reg i) (.flush i),
          (S.answer (v.core.resolveData S.reg i) (.flush i) v.data).1⟩).toList := by
  obtain ⟨hres, hnotes⟩ := serve_flush (S := S) i v
  rw [hres, hnotes, hm]
  refine ⟨rfl, ?_⟩
  show List.filterMap flushedBy [⟨.resolveData i, _⟩, ⟨.data (v.core.resolveData S.reg i) (.flush i),
    (S.answer (v.core.resolveData S.reg i) (.flush i) v.data).1⟩] = _
  rw [List.filterMap_cons_none rfl, List.filterMap_cons]
  split
  · rename_i hnone
    rw [hnone]
    rfl
  · rename_i note hsome
    rw [hsome]
    rfl

/-- The data server answers the `flush` that the client would send now. -/
def FlushAnswered (S : VfsSetup δ) (i : Nat) (v : VfsState δ) : Prop :=
  Except.isOk (S.answer (v.core.resolveData S.reg i) (.flush i) v.data).1 = true

theorem flushed_mem_notes {v : VfsState δ} (hm : v.core.writtenInodes i = true) (hans : FlushAnswered S i v) :
    .flushed i ∈ v.notes S (.flush i) := by
  rw [(flush_marked hm).2]
  unfold FlushAnswered at hans
  cases hr : (S.answer (v.core.resolveData S.reg i) (.flush i) v.data).1 with
  | error e =>
      rw [hr] at hans
      cases hans
  | ok _ => exact List.mem_singleton.2 rfl

/-- No release and no failing `flush` of an inode with a write that waits for a flush. -/
def KeepsWaiting (S : VfsSetup δ) (es : List (VfsCall × List FlushNote)) (v : VfsState δ) : VfsCall → Prop
  | .release i => ¬Unflushed i (noteLog es)
  | .flush i => Unflushed i (noteLog es) → FlushAnswered S i v
  | _ => True

theorem noteLog_snoc (es : List (VfsCall × List FlushNote)) (c : VfsCall) (ms : List FlushNote) :
    noteLog (es ++ [(c, ms)]) = noteLog es ++ ms := by
  simp [noteLog]

/-- Whoever waits for a flush is marked. -/
theorem marked_of_unflushed {v₀ v : VfsState δ} {es : List (VfsCall × List FlushNote)}
    (h : Trace (noted S) (KeepsWaiting S) v₀ es v) (hw : Unflushed i (noteLog es)) :
    v.core.writtenInodes i = true := by
  refine h.invariant (fun es v => Unflushed i (noteLog es) → v.core.writtenInodes i = true) ?_ ?_ hw
  · intro hw
    exact absurd hw (not_unflushed_nil i)
  · intro es v c ih hok hw
    rw [noteLog_snoc] at hw
    show (v.serve S c).2.core.writtenInodes i = true
    rcases hw.append with hnew | ⟨hold, hnone⟩
    · exact written_mem_notes hnew
    · have hm := ih hold
      by_cases hflush : c = .flush i
      · subst hflush
        exact absurd (flushed_mem_notes hm (hok hold)) hnone
      · by_cases hrelease : c = .release i
        · subst hrelease
          exact absurd hold hok
        · exact keepsMark_call c hflush hrelease v hm

/-- **A flush that answers `Ok` is one.**  In every run without a release or a failing `flush` of an inode with a
write that waits, whenever `flush` of an inode answers `Ok` no completed write of it waits for a confirmed flush. -/
theorem flush_durable {v₀ v : VfsState δ} {es : List (VfsCall × List FlushNote)}
    (h : Trace (noted S) (KeepsWaiting S) v₀ es v) (hok : (v.serve S (.flush i)).1.isOk = true) :
    ¬Unflushed i (noteLog (es ++ [(.flush i, v.notes S (.flush i))])) := by
  intro hw
  rw [noteLog_snoc] at hw
  rcases hw.append with hnew | ⟨hold, hnone⟩
  · obtain ⟨-, hnotes⟩ := serve_flush (S := S) i v
    rw [hnotes] at hnew
    obtain ⟨⟨e, r⟩, -, he⟩ := List.mem_filterMap.1 hnew
    unfold flushedBy at he
    split at he <;> cases he
  · have hm := marked_of_unflushed h hold
    rw [(flush_marked hm).1] at hok
    exact hnone (flushed_mem_notes hm hok)

end

/-! ## Two runs -/

/-- Data servers that keep a disk, and whose next answers to `flush` are given; after those it is `Ok`. -/
def scriptedFlush : VfsSetup (RawDisk × List Bool) where
  reg := ⟨0, fun _ => none⟩
  answer
    | _, .flush _, (d, ok :: oks) => (if ok then .ok () else .error (.io "sync"), (d, oks))
    | _, c, (d, oks) => ((RawDisk.serve c d).1, ((RawDisk.serve c d).2, oks))

/-- An empty file, inode 2. -/
def scripted (oks : List Bool) : VfsState (RawDisk × List Bool) where
  server := ((Server.fresh {}).exec {} (.create 1 [97] 0o644 0 0)).2
  data := (⟨.empty, 1024⟩, oks)

/-- The history of some calls, and the state they leave. -/
def notedRun (cs : List VfsCall) (v : VfsState (RawDisk × List Bool)) :
    List (VfsCall × List FlushNote) × VfsState (RawDisk × List Bool) :=
  cs.foldl (fun r c => (r.1 ++ [(c, (noted scriptedFlush c r.2).1)], (noted scriptedFlush c r.2).2)) ([], v)

/-- A write, and a flush that the data server answers. -/
theorem flush_durable_answered :
    let v := (notedRun [.openFile 2 0, .write 2 0 [65] 0] (scripted [])).2
    ¬Unflushed 2 (noteLog ((notedRun [.openFile 2 0, .write 2 0 [65] 0] (scripted [])).1 ++
      [(.flush 2, v.notes scriptedFlush (.flush 2))])) := by
  have h : Trace (noted scriptedFlush) (KeepsWaiting scriptedFlush) (scripted [])
      (notedRun [.openFile 2 0, .write 2 0 [65] 0] (scripted [])).1
      (notedRun [.openFile 2 0, .write 2 0 [65] 0] (scripted [])).2 :=
    .snoc (VfsCall.write 2 0 [65] 0) (.snoc (VfsCall.openFile 2 0) .nil trivial) trivial
  exact flush_durable h (by decide +kernel)

/-- **The mark is lost** by the release of another handle and by a flush that fails: the next flush answers `Ok`
with no request to the data server, and the write waits. -/
theorem mark_lost :
    let released := notedRun [.openFile 2 0, .openFile 2 0, .write 2 0 [65] 0, .release 2, .flush 2] (scripted [])
    let failed := notedRun [.openFile 2 0, .write 2 0 [65] 0, .flush 2, .flush 2] (scripted [false])
    (((notedRun [.openFile 2 0, .openFile 2 0, .write 2 0 [65] 0, .release 2] (scripted [])).2.serve scriptedFlush
        (.flush 2)).1.isOk = true ∧ noteLog released.1 = [.written 2]) ∧
      ((notedRun [.openFile 2 0, .write 2 0 [65] 0, .flush 2] (scripted [false])).2.serve scriptedFlush
        (.flush 2)).1.isOk = true ∧ noteLog failed.1 = [.written 2] ∧ Unflushed 2 [.written 2] := by
  refine ⟨⟨by decide +kernel, by decide +kernel⟩, by decide +kernel, by decide +kernel, [], [], rfl, ?_⟩
  exact List.not_mem_nil

end VfsState

end RucksFs
