import RucksFs.Server.Commits
import RucksFs.Server.Walk

/-!
# What `open`, `unlink` and `release` know and owe

`unlink` reads the handle count, commits, and registers the inode in `pending_deletes`, in three steps
under different locks; `release` takes a handle away and looks at both tables in one step and deletes in
another; `open` loads the record and counts the handle later.

* `Watch` — what is followed along one call: what it has seen, and what it still owes to an inode.
* `watching` — the obligations: a record is pushed without links only if it was found open, and deleted
  only if it was found closed or is due.
* `watches` — every call meets them, and owes nothing when it returns, unless it is a `release` that
  fails.
-/

set_option autoImplicit false

namespace RucksFs

open Prog Op

/-! ## Following a call -/

/-- What a call still has to do for an inode: register the deletion, delete the record, or forget the
cached copy. -/
inductive Debt where
  | register
  | delete
  | forget
  deriving DecidableEq

/-- The calls of this section. -/
def Call.onHandles : Call → Bool
  | .openFile _ _ | .unlink _ _ | .release _ => true
  | _ => false

def Call.isUnlink : Call → Bool
  | .unlink _ _ => true
  | _ => false

structure Watch where
  /-- The record was loaded by `open`. -/
  seen : Bool := false
  /-- The entry read under lock, and the file whose record was read under lock. -/
  entry : Option DirValue := none
  child : Option Inode := none
  /-- The handle count read by `unlink`. -/
  count : Option (Inode × Nat) := none
  owes : Option (Inode × Debt) := none

namespace Watch

/-- What is owed when a call commits. -/
def due : Call → Option (Inode × Debt)
  | .release i => some (i, .delete)
  | _ => none

/-- What is owed after a commit. -/
def committed (c : Call) (g : Watch) : Option (Inode × Debt) :=
  match c with
  | .release i => some (i, .forget)
  | _ =>
      match g.count with
      | some (i, 0) => some (i, .forget)
      | some (i, _ + 1) => some (i, .register)
      | none => none

def upd (c : Call) (g : Watch) : (e : Eff) → e.Res → Watch
  | .beginWrite, _ => { g with entry := none, child := none, count := none }
  | .dropBatch, _ => { g with entry := none, child := none, count := none }
  | .getForUpdateDirEntry _ _, .ok (some v) => { g with entry := some v }
  | .getForUpdateInode i, .ok (some iv) =>
      if g.child = none ∧ isDir iv.mode = false then { g with child := some i } else g
  | .handleCount i, n => { g with count := some (i, n) }
  | .cacheGet _, some _ => { g with seen := true }
  | .getInode _, .ok (some _) => { g with seen := true }
  | .checkAndClearDeferredDelete i, true => { g with owes := some (i, .delete) }
  | .commit, .ok _ => { g with entry := none, owes := g.committed c }
  | .commit, .error _ => { g with entry := none }
  | .pendingInsert _, _ => { g with owes := none }
  | .cacheInvalidate i, _ => if g.owes = some (i, .forget) then { g with owes := none } else g
  | _, _ => g

/-- What may be pushed: the record of a file only if it is rewritten or was read under lock, without links
only if it was found open; a deletion only if the file was found closed, or is due. -/
def PushOk (c : Call) (g : Watch) : BatchOp → Prop
  | .putInode i iv => (iv.nlink = 0 → isDir iv.mode = false) ∧
      (isDir iv.mode = false → i ∈ c.parents ∨ c.rewritten = some i ∨
        g.child = some i ∧ (iv.nlink = 0 → ∃ m, g.count = some (i, m + 1)))
  | .deleteInode i => g.count = some (i, 0) ∨ g.owes = some (i, .delete)
  | _ => True

theorem PushOk.mono {c : Call} {g g' : Watch} {op : BatchOp} (h : g.PushOk c op)
    (hchild : ∀ i, g.child = some i → g'.child = some i)
    (hcount : ∀ i n, g.count = some (i, n) → g'.count = some (i, n))
    (howes : ∀ i, g.owes = some (i, .delete) → g'.owes = some (i, .delete)) : g'.PushOk c op := by
  cases op with
  | putInode i iv =>
      refine ⟨h.1, fun hd => (h.2 hd).imp_right (Or.imp_right fun hc => ?_)⟩
      exact ⟨hchild i hc.1, fun hz => (hc.2 hz).imp fun m hm => hcount i _ hm⟩
  | deleteInode i => exact Or.imp (hcount i 0) (howes i) h
  | _ => trivial

/-- A record read under lock has the type its entry says, and has links if it is a directory's. -/
def AnswerOk (c : Call) (g : Watch) : (e : Eff) → e.Res → Prop
  | .getForUpdateInode i, .ok (some iv) =>
      (iv.nlink = 0 → isDir iv.mode = false) ∧ (c.isUnlink = true → g.child = none →
        ∀ v, g.entry = some v → v.inode = i → isDir iv.mode = isDir v.mode)
  | _, _ => True

end Watch

/-- Obligations of the calls of this section. -/
def Watch.Pre (c : Call) (e : Eff) (g : Watch) : Prop :=
  match e with
  | .push op => g.PushOk c op ∧ (c.isUnlink = true → g.child ≠ none)
  | .handleCount i => c.isUnlink = true ∧ g.child = some i ∧ g.count = none
  | .handleIncr i => (∃ f, c = .openFile i f) ∧ g.seen = true
  | .cacheGet i => ∃ f, c = .openFile i f
  | .getInode i => ∃ f, c = .openFile i f
  | .cachePut i _ => (∃ f, c = .openFile i f) ∧ g.seen = true ∨
      c.isUnlink = true ∧ g.child = some i ∧ g.count ≠ some (i, 0)
  | .checkAndClearDeferredDelete i => c = .release i ∧ g.owes = none
  | .pendingInsert i => g.owes = some (i, .register)
  | .commit => g.owes = Watch.due c
  | _ => True

def watching (c : Call) : Contract Eff Eff.Res Watch :=
  following (fun e g => c.onHandles = true → g.Pre c e) (Watch.upd c)
    fun g e r => c.onHandles = true → g.AnswerOk c e r

/-- Nothing is owed at the end, unless a `release` has failed. -/
def Watch.Settled (c : Call) (r : Reply) (g : Watch) : Prop :=
  c.onHandles = true → r.isOk = true ∨ c.isUnlink = true ∨ c.rewritten ≠ none → g.owes = none

/-! ## The calls -/

section Walks

variable {α : Type} {c : Call} {E : Watch → Prop} {g : Watch} {Q : Unit → Watch → Prop} {i : Inode}

theorem watch_nowSecs {Q : Nat → Watch → Prop} (h : ∀ ts, Q ts g) : wpE (watching c) E nowSecs Q g :=
  follow_skip (fun _ => trivial) (fun _ => rfl) h

theorem watch_push {op : BatchOp} (hop : g.PushOk c op) (hc : c.isUnlink = true → g.child ≠ none) (h : Q () g) :
    wpE (watching c) E (push op) Q g :=
  follow_skip (fun _ => ⟨hop, hc⟩) (fun _ => rfl) fun _ => h

theorem watch_commit (hpre : g.owes = Watch.due c) (hE : E { g with entry := none })
    (h : Q () { g with entry := none, owes := g.committed c }) : wpE (watching c) E commit Q g := by
  refine ⟨fun _ => hpre, fun r g' hp => ?_⟩
  obtain ⟨rfl, -⟩ := hp
  cases r with
  | ok _ => exact h
  | error _ => exact hE

theorem watch_clearDeltas (h : Q () g) : wpE (watching c) E (clearDeltas i) Q g := by
  unfold clearDeltas
  rw [wpE_bind]
  exact follow_skip (fun _ => trivial) (fun _ => rfl) fun _ => h

theorem watch_cacheInvalidate (hg : g.owes = some (i, .forget)) (h : Q () { g with owes := none }) :
    wpE (watching c) E (cacheInvalidate i) Q g := by
  have hpaid : g.upd c (.cacheInvalidate i) () = { g with owes := none } := if_pos hg
  exact follow_eff (fun _ => trivial) fun _ _ => hpaid.symm ▸ h

/-- The start of an attempt forgets what earlier ones have read. -/
def Watch.reset (g : Watch) : Watch := { g with entry := none, child := none, count := none }

/-- An invariant `I` of the attempts that fail. -/
theorem watch_retry {body : Op α} {I : Watch → Prop} {Q : α → Watch → Prop} (hE : ∀ g, I g → E g)
    (h : ∀ g, I g → wpE (watching c) (fun g' => I g'.reset) body (fun a g' => Q a g'.reset) g.reset) :
    ∀ (n : Nat) (g : Watch), I g → wpE (watching c) E (retry body n) Q g :=
  follow_retry (fun _ _ _ => trivial) (fun _ _ => trivial) hE h

/-! ### `open` -/

/-- The record is seen and nothing is owed. -/
def Watch.Opened (g : Watch) : Prop := g.seen = true ∧ g.owes = none ∧ g.count = none

theorem watch_loadInode {f : Nat} {Q : InodeValue → Watch → Prop} (hg : g.owes = none ∧ g.count = none)
    (hE : ∀ g', g'.owes = none → E g') (h : ∀ iv g', g'.Opened → Q iv g') :
    wpE (watching (.openFile i f)) E (loadInode i) Q g := by
  unfold loadInode
  rw [wpE_bind]
  refine follow_eff (fun _ => ⟨f, rfl⟩) fun o _ => ?_
  cases o with
  | some iv => exact h iv _ ⟨rfl, hg⟩
  | none =>
      dsimp only
      rw [wpE_bind]
      refine ⟨fun _ => ⟨f, rfl⟩, fun r g' hp => ?_⟩
      obtain ⟨rfl, -⟩ := hp
      match r with
      | .error x => exact hE _ hg.1
      | .ok none => exact hE _ hg.1
      | .ok (some base) =>
          show wpE _ _ (do let iv := foldDeltas base (← scanDeltas i); cachePut i iv; return iv) _ _
          rw [wpE_bind]
          refine ⟨fun _ => trivial, fun r g' hp => ?_⟩
          obtain ⟨rfl, -⟩ := hp
          cases r with
          | error x => exact hE _ hg.1
          | ok ds =>
              show wpE _ _ (do cachePut i (foldDeltas base ds); return foldDeltas base ds) _ _
              rw [wpE_bind]
              refine follow_skip (fun _ => Or.inl ⟨⟨f, rfl⟩, rfl⟩) (fun _ => rfl) fun _ => ?_
              exact h _ _ ⟨rfl, hg⟩

theorem watch_openFile (cfg : Config) (i : Inode) (f : Nat) :
    wpE (watching (.openFile i f)) (fun g => g.owes = none) (openFile cfg i f) (fun _ g => g.owes = none) {} := by
  have hopen : ∀ g : Watch, g.Opened → wpE (watching (.openFile i f)) (fun g => g.owes = none) (do
      handleIncr i
      let serverId := (← getDataLocation i).getD cfg.defaultDataLocation.serverId
      return (⟨i, ⟨serverId⟩⟩ : OpenResponse)) (fun _ g => g.owes = none) g := by
    intro g hg
    rw [wpE_bind]
    refine follow_skip (fun _ => ⟨⟨f, rfl⟩, hg.1⟩) (fun _ => rfl) fun _ => ?_
    rw [wpE_bind]
    refine ⟨fun _ => trivial, fun r g' hp => ?_⟩
    obtain ⟨rfl, -⟩ := hp
    cases r with
    | ok o => exact hg.2.1
    | error x => exact hg.2.1
  unfold openFile
  rw [wpE_bind]
  refine watch_loadInode ⟨rfl, rfl⟩ (fun _ h => h) fun iv g hg => ?_
  refine wpE_guard (fun _ => hg.2.1) fun _ => ?_
  dsimp only
  split
  · rw [wpE_bind]
    refine watch_retry (I := Watch.Opened) (fun _ h => h.2.1) (fun g hg => ?_) _ g hg
    rw [wpE_bind]
    refine ⟨fun _ => trivial, fun r g' hp => ?_⟩
    obtain ⟨rfl, hans⟩ := hp
    have hread : ∀ r, ((g.reset).upd (.openFile i f) (.getForUpdateInode i) r).Opened := by
      intro r
      match r with
      | .error x => exact ⟨hg.1, hg.2.1, rfl⟩
      | .ok none => exact ⟨hg.1, hg.2.1, rfl⟩
      | .ok (some raw) =>
          unfold Watch.upd
          dsimp only
          split <;> exact ⟨hg.1, hg.2.1, rfl⟩
    cases r with
    | error x => exact ⟨(hread _).1, (hread _).2.1, rfl⟩
    | ok o =>
        obtain ⟨hseen, howes, hcount⟩ := hread (.ok o)
        show wpE _ _ (do let raw ← orNotFound o; _) _ _
        rw [wpE_bind]
        refine follow_orNotFound (fun raw hraw => ?_) ⟨hseen, howes, rfl⟩
        subst hraw
        rw [wpE_bind]
        refine watch_nowSecs fun ts => ?_
        rw [wpE_bind]
        refine watch_push ⟨(hans rfl).1, fun _ => Or.inr (Or.inl rfl)⟩ nofun ?_
        rw [wpE_bind]
        have hnone : Watch.committed (.openFile i f)
            ((g.reset).upd (.openFile i f) (.getForUpdateInode i) (.ok (some raw))) = none := by
          unfold Watch.committed
          rw [hcount]
        refine watch_commit howes ⟨hseen, howes, rfl⟩ ?_
        refine follow_skip (fun _ => Or.inl ⟨⟨f, rfl⟩, hseen⟩) (fun _ => rfl) fun _ => ?_
        exact hopen _ ⟨hseen, hnone, rfl⟩
  · exact hopen g hg

/-! ### `unlink` -/

theorem watch_pushDeltas (p : Inode) (hc : c.isUnlink = true → g.child ≠ none) :
    ∀ (ds : List DeltaOp) {Q : Unit → Watch → Prop}, Q () g → wpE (watching c) E (pushDeltas p ds) Q g
  | [], _, h => h
  | d :: ds, Q, h => by
      unfold pushDeltas
      rw [wpE_bind]
      refine follow_skip (fun _ => trivial) (fun _ => rfl) fun q => ?_
      rw [wpE_bind]
      exact watch_push trivial hc (watch_pushDeltas p hc ds h)

theorem watch_batchParentDeltas {cfg : Config} {p : Inode} {ds : List DeltaOp} (ho : c.onHandles = true)
    (hp : p ∈ c.parents) (hds : ∀ iv, (foldDeltas iv ds).nlink = iv.nlink) (hc : g.child ≠ none) (h : Q () g) :
    wpE (watching c) E (batchParentDeltas cfg p ds) Q g := by
  unfold batchParentDeltas
  split
  · exact watch_pushDeltas p (fun _ => hc) ds h
  · rw [wpE_bind, wpE_lift]
    refine ⟨fun _ => trivial, fun r g' hpost => ?_⟩
    obtain ⟨rfl, hans⟩ := hpost
    match r with
    | .error x => exact h
    | .ok none => exact h
    | .ok (some iv) =>
        have hlinks : (foldDeltas iv ds).nlink = 0 → isDir (foldDeltas iv ds).mode = false := by
          rw [hds, foldDeltas_mode]
          exact (hans ho).1
        -- the file was read before its parent
        have hsame : g.upd c (.getForUpdateInode p) (.ok (some iv)) = g := if_neg fun hn => hc hn.1
        rw [hsame]
        exact watch_push ⟨hlinks, fun _ => Or.inl hp⟩ (fun _ => hc) h

theorem watch_unlinkChild {iv : InodeValue} {Q : InodeValue × Option (Inode × Bool) → Watch → Prop}
    (hc : c.isUnlink = true) (hfile : isDir iv.mode = false) (hchild : g.child = some i) (hcount : g.count = none)
    (hkeep : ∀ iv', Q (iv', none) g) (hopen : ∀ iv' m, Q (iv', some (i, true)) { g with count := some (i, m + 1) })
    (hdrop : Q (iv, some (i, false)) { g with count := some (i, 0) }) : wpE (watching c) E (unlinkChild i iv) Q g := by
  have hne : ∀ {x : Option (Inode × Nat)}, ({ g with count := x } : Watch).child ≠ none := by simp [hchild]
  unfold unlinkChild
  split
  · rw [wpE_bind]
    refine follow_eff (fun _ => ⟨hc, hchild, hcount⟩) fun (count : Nat) _ => ?_
    split
    · rename_i hpos
      obtain ⟨m, rfl⟩ : ∃ m, count = m + 1 := ⟨count - 1, by omega⟩
      rw [wpE_bind]
      refine watch_nowSecs fun ts => ?_
      rw [wpE_bind]
      refine watch_push ⟨fun _ => hfile, fun _ => Or.inr (Or.inr ⟨hchild, fun _ => ⟨m, rfl⟩⟩)⟩
        (fun _ => hne) (hopen _ m)
    · rename_i hz
      obtain rfl : count = 0 := by omega
      rw [wpE_bind]
      refine watch_push (Or.inl rfl) (fun _ => hne) ?_
      rw [wpE_bind]
      exact watch_push trivial (fun _ => hne) hdrop
  · rename_i hnz
    rw [wpE_bind]
    refine watch_nowSecs fun ts => ?_
    rw [wpE_bind]
    exact watch_push ⟨fun _ => hfile, fun _ => Or.inr (Or.inr ⟨hchild, fun hz => absurd hz hnz⟩)⟩
      (fun _ => by simp [hchild]) (hkeep _)

/-- What follows the commit: the debt is paid, or still to be registered. -/
theorem watch_unlinkTxn (cfg : Config) (p : Inode) (n : Name) (hg : g.owes = none) :
    wpE (watching (.unlink p n)) (fun g' => g'.reset.owes = none) (do
      let dirVal ← orNotFound (← getForUpdateDirEntry p n)
      let child := dirVal.inode
      if isDir dirVal.mode then throw .isADirectory
      let childIv ← orNotFound (← getForUpdateInode child)
      let childIv := { childIv with nlink := childIv.nlink - 1 }
      push (.deleteDirEntry p n)
      let (childIv, result) ← unlinkChild child childIv
      let ts ← nowSecs
      batchParentDeltas cfg p [.setMtime ts, .setCtime ts]
      commit
      match result with
      | some (ino, false) => do
          clearDeltas ino
          cacheInvalidate ino
      | _ => cachePut child childIv
      return (result, ts))
      (fun a g' => g'.reset.owes = match a.1 with
        | some (i, true) => some (i, .register)
        | _ => none) g.reset := by
  have hpar : p ∈ (Call.unlink p n).parents := List.mem_cons_self
  rw [wpE_bind]
  refine ⟨fun _ => trivial, fun r g' hp => ?_⟩
  obtain ⟨rfl, -⟩ := hp
  match r with
  | .error x => exact hg
  | .ok none => exact hg
  | .ok (some v) =>
    refine wpE_guard (f := fun _ => _) (fun _ => hg) fun hdir => ?_
    rw [wpE_bind]
    refine ⟨fun _ => trivial, fun r g' hp => ?_⟩
    obtain ⟨rfl, hans⟩ := hp
    match r with
    | .error x => exact hg
    | .ok none => exact hg
    | .ok (some iv) =>
      have hfile : isDir iv.mode = false := ((hans rfl).2 rfl rfl v rfl rfl).trans (by simpa using hdir)
      have hsame : Watch.upd (.unlink p n) (Watch.upd (.unlink p n) g.reset (.getForUpdateDirEntry p n)
          (.ok (some v))) (.getForUpdateInode v.inode) (.ok (some iv)) =
          { g with entry := some v, child := some v.inode, count := none } := if_pos ⟨rfl, hfile⟩
      rw [hsame]
      show wpE _ _ (do push (.deleteDirEntry p n); _) _ _
      rw [wpE_bind]
      refine watch_push trivial (fun _ => by simp) ?_
      rw [wpE_bind]
      refine watch_unlinkChild rfl hfile rfl rfl (fun iv' => ?_) (fun iv' m => ?_) ?_
      · rw [wpE_bind]
        refine watch_nowSecs fun ts => ?_
        rw [wpE_bind]
        refine watch_batchParentDeltas rfl hpar (fun _ => rfl) (by simp) ?_
        rw [wpE_bind]
        refine watch_commit hg hg ?_
        dsimp only
        rw [wpE_bind]
        exact follow_skip (fun _ => Or.inr ⟨rfl, rfl, by simp⟩) (fun _ => rfl) fun _ => rfl
      · rw [wpE_bind]
        refine watch_nowSecs fun ts => ?_
        rw [wpE_bind]
        refine watch_batchParentDeltas rfl hpar (fun _ => rfl) (by simp) ?_
        rw [wpE_bind]
        refine watch_commit hg hg ?_
        dsimp only
        rw [wpE_bind]
        exact follow_skip (fun _ => Or.inr ⟨rfl, rfl, by simp⟩) (fun _ => rfl) fun _ => rfl
      · rw [wpE_bind]
        refine watch_nowSecs fun ts => ?_
        rw [wpE_bind]
        refine watch_batchParentDeltas rfl hpar (fun _ => rfl) (by simp) ?_
        rw [wpE_bind]
        refine watch_commit hg hg ?_
        dsimp only
        rw [wpE_bind]
        refine watch_clearDeltas ?_
        rw [wpE_bind]
        exact watch_cacheInvalidate rfl rfl

theorem watch_unlink (cfg : Config) (p : Inode) (n : Name) :
    wpE (watching (.unlink p n)) (fun g => g.owes = none) (unlink cfg p n) (fun _ g => g.owes = none) {} := by
  have htail : ∀ (ts : Nat) (purged : List Inode) (g : Watch), g.owes = none →
      wpE (watching (.unlink p n)) (fun g => g.owes = none)
        (do cacheApplyDeltas p [.setMtime ts, .setCtime ts]; markDirty p; return purged)
        (fun _ g => g.owes = none) g := by
    intro ts purged g hg
    rw [wpE_bind]
    refine follow_skip (fun _ => trivial) (fun _ => rfl) fun _ => ?_
    rw [wpE_bind]
    exact follow_skip (fun _ => trivial) (fun _ => rfl) fun _ => hg
  unfold unlink
  rw [wpE_bind]
  unfold validateName
  split
  · exact rfl
  rw [wpE_pure, wpE_bind]
  refine watch_retry (I := fun g => g.owes = none) (fun _ h => h) (Q := fun a g' => _)
    (fun g hg => wpE_mono (fun a g' hq => ?_) (fun _ h => h) (watch_unlinkTxn cfg p n hg)) _ {} rfl
  obtain ⟨o, ts⟩ := a
  match o with
  | some (i, true) =>
      show wpE _ _ (pendingInsert i >>= _) _ _
      rw [wpE_bind]
      exact follow_eff (fun _ => hq) fun _ _ => htail ts _ _ rfl
  | some (i, false) => exact htail ts _ _ hq
  | none => exact htail ts _ _ hq

/-! ### `release` -/

theorem watch_release (i : Inode) :
    wpE (watching (.release i)) (fun _ => True) (release i) (fun _ g => g.owes = none) {} := by
  unfold release
  rw [wpE_bind]
  refine follow_eff (fun _ => ⟨rfl, rfl⟩) fun due _ => ?_
  cases due with
  | false => exact rfl
  | true =>
      show wpE _ _ (do executeWithRetry _; _) _ _
      rw [wpE_bind]
      refine watch_retry (I := fun g => g.owes = some (i, .delete)) (fun _ _ => trivial) (fun g hg => ?_) _ _ rfl
      rw [wpE_bind]
      refine watch_push (Or.inr hg) nofun ?_
      rw [wpE_bind]
      refine watch_push trivial nofun ?_
      refine watch_commit hg hg ?_
      rw [wpE_bind]
      refine watch_clearDeltas ?_
      rw [wpE_bind]
      exact watch_cacheInvalidate rfl rfl

end Walks

/-- Every call meets the obligations. -/
theorem watches (cfg : Config) (c : Call) : wp (watching c) (c.body cfg) (Watch.Settled c) {} := by
  by_cases hc : c.onHandles = true
  · cases c with
    | openFile i f =>
        show wp _ ((openFile cfg i f).run >>= _) _ _
        rw [wp_bind]
        refine wp_mono (fun r g hr => ?_) (watch_openFile cfg i f)
        cases r <;> exact fun _ _ => hr
    | unlink p n =>
        show wp _ ((unlink cfg p n).run >>= _) _ _
        rw [wp_bind]
        refine wp_mono (fun r g hr => ?_) (watch_unlink cfg p n)
        cases r <;> exact fun _ _ => hr
    | release i =>
        show wp _ ((release i).run >>= _) _ _
        rw [wp_bind]
        refine wp_mono (fun r g hr => ?_) (watch_release i)
        cases r with
        | ok a => exact fun _ _ => hr
        | error x =>
            rintro - (h | h | h)
            · cases h
            · cases h
            · exact absurd rfl h
    | _ => cases hc
  · refine wp_mono (fun r g _ => fun h => absurd h hc) (wp_true (fun e g h => absurd h hc) _ _)

end RucksFs
