import RucksFs.Client.Interleaved
import RucksFs.Server.Transactions

/-!
# How far a write has come

The programs of `write` and `fallocate` as seen from one thread: what each of their steps needs and what its
answer tells.  `Progress` is what a proof remembers of the steps so far; what other threads do in the meantime
is the business of `RucksFs.Client.Writes`.

* `serverContract`, `clientContract` — the steps of the metadata server and of the client.
* `wpE_reportWrite`, `wpE_extend`, `wpE_getattr` — the three operations of the server.
* `wp_body` — both calls keep their contract, with all retries.
-/

set_option autoImplicit false

namespace RucksFs

open Prog Op

/-! ## How far a call has come -/

/-- How far a call has come; proofs follow it along the program, no effect depends on it. -/
structure Progress where
  /-- What the data server has stored. -/
  written : Option Nat := none
  /-- The record that was read under the row lock, until the transaction ends. -/
  read : Option InodeValue := none
  /-- The record that the transaction will store. -/
  pending : Option InodeValue := none
  /-- The record that was stored and is not cached yet. -/
  put : Option InodeValue := none
  /-- The size that was reported. -/
  reported : Option Nat := none
  /-- A size that the file has had. -/
  floor : Nat := 0

def FileCall.client : FileCall → Nat
  | .write k _ _ _ _ | .fallocate k _ _ _ _ => k

def FileCall.inode : FileCall → Nat
  | .write _ i _ _ _ | .fallocate _ i _ _ _ => i

/-- The end up to which the file is to reach. -/
def FileCall.target (g : Progress) : FileCall → Nat
  | .write _ _ off _ _ => off + g.written.getD 0
  | .fallocate _ _ off len _ => off + len

/-- The size that the call gives a file of size `z`. -/
def FileCall.resize (g : Progress) (z : Nat) : FileCall → Nat
  | .write _ _ off _ _ => max z (off + g.written.getD 0)
  | .fallocate _ _ off len _ => off + len

/-- The record that an operation of a batch stores. -/
def BatchOp.stored : BatchOp → Option InodeValue
  | .putInode _ iv => some iv
  | _ => none

def FileCall.isWrite : FileCall → Bool
  | .write .. => true
  | .fallocate .. => false

section

variable (i srv : Nat) (t : FileCall)

/-- The effects of the metadata server.  Between a commit and the update of the cache there is nothing. -/
def serverContract : Contract Eff Eff.Res Progress where
  pre e g := match e with
    | .cachePut j v => j = i ∧ (g.put = some v ∨ t.isWrite = false ∧ g.put = none ∧ v.size ≤ g.floor)
    | .beginWrite | .dropBatch | .nowSecs => g.put = none
    | .getForUpdateInode j => j = i ∧ g.put = none ∧ g.pending = none
    | .push op => g.put = none ∧ g.pending = none ∧ ∃ raw iv, op = .putInode i iv ∧ g.read = some raw ∧
        iv.size = t.resize g raw.size
    | .commit => g.put = none ∧ g.pending.isSome = true ∧ g.reported = none
    | .cacheGet j | .getInode j | .scanDeltas j => j = i ∧ g.put = none
    | _ => False
  post e g r g' := match e, r with
    | .cachePut _ _, _ => g' = { g with put := none }
    | .beginWrite, _ | .dropBatch, _ => g' = { g with read := none, pending := none }
    | .getForUpdateInode _, .ok (some raw) => g' = { g with read := some raw }
    | .push op, _ => g' = { g with pending := op.stored }
    | .commit, .ok _ =>
        g' = { g with read := none, pending := none, put := g.pending, reported := some (t.target g) } ∧
          ∀ raw, g.read = some raw → raw.size ≤ t.resize g raw.size
    | .commit, .error _ => g' = { g with read := none, pending := none }
    | .cacheGet _, some v => g' = { g with floor := max g.floor v.size }
    | .getInode _, .ok (some v) => g' = { g with floor := max g.floor v.size }
    | _, _ => g' = g

/-- The steps of the client. -/
def clientContract : Contract VfsEff VfsEff.Res Progress where
  pre e g := g.put = none ∧ match e with
    | .metadata (.reportWrite j newSize _) =>
        j = i ∧ t.isWrite = true ∧ newSize = t.target g ∧ g.reported = none
    | .metadata (.getattr j) => j = i ∧ t.isWrite = false ∧ g.reported = none
    | .metadata (.setattr j req) =>
        j = i ∧ t.isWrite = false ∧ req = { size := some (t.target g) } ∧ g.reported = none
    | .resolveData j => j = i
    | .data s c => s = srv ∧ g.pending = none ∧ ∃ k off data flags, t = .write k i off data flags ∧
        c = .writeData i off data
    | .nowSecs | .writtenInsert _ => True
    | _ => False
  post e g r g' := match e, r with
    | .metadata (.reportWrite _ _ _), .ok _ =>
        g'.put = none ∧ g'.written = g.written ∧ g'.reported = some (t.target g)
    | .metadata (.getattr _), .ok a =>
        g'.put = none ∧ g'.reported = none ∧ FileAttr.size a ≤ g'.floor
    | .metadata (.setattr _ _), .ok resp =>
        g'.put = none ∧ g'.reported = some (t.target g) ∧ SetAttrResponse.needsTruncate resp = none
    | .metadata _, .error _ => g'.put = none
    | .resolveData _, r => r = srv ∧ g' = g
    | .data _ (.writeData _ _ _), .ok n => g' = { g with written := some n }
    | _, _ => g' = g

end

/-- The steps of the server do not touch the data. -/
theorem serverContract_written {i : Nat} {t : FileCall} {e : Eff} {g g' : Progress} {r : e.Res}
    (hpre : (serverContract i t).pre e g) (hpost : (serverContract i t).post e g r g') : g'.written = g.written := by
  cases e with
  | getForUpdateInode j =>
      match r, hpost with
      | .error _, hpost => rw [show g' = g from hpost]
      | .ok none, hpost => rw [show g' = g from hpost]
      | .ok (some raw), hpost => rw [show g' = { g with read := some raw } from hpost]
  | commit =>
      match r, hpost with
      | .error _, hpost => rw [show g' = _ from hpost]
      | .ok _, hpost => rw [hpost.1]
  | cacheGet j =>
      match r, hpost with
      | none, hpost => rw [show g' = g from hpost]
      | some v, hpost => rw [show g' = _ from hpost]
  | getInode j =>
      match r, hpost with
      | .error _, hpost => rw [show g' = g from hpost]
      | .ok none, hpost => rw [show g' = g from hpost]
      | .ok (some v), hpost => rw [show g' = _ from hpost]
  | beginWrite | dropBatch | nowSecs | push op | cachePut j v | scanDeltas j => rw [show g' = _ from hpost]
  | _ => cases hpre

/-- Only a commit and the update of the cache change what is to be cached. -/
theorem serverContract_put {i : Nat} {t : FileCall} {e : Eff} {g g' : Progress} {r : e.Res}
    (hpre : (serverContract i t).pre e g) (hpost : (serverContract i t).post e g r g') (hc : e ≠ .commit)
    (hp : ∀ j v, e ≠ .cachePut j v) : g'.put = g.put := by
  cases e with
  | getForUpdateInode j =>
      match r, hpost with
      | .error _, hpost => rw [show g' = g from hpost]
      | .ok none, hpost => rw [show g' = g from hpost]
      | .ok (some raw), hpost => rw [show g' = { g with read := some raw } from hpost]
  | commit => exact absurd rfl hc
  | cachePut j v => exact absurd rfl (hp j v)
  | cacheGet j =>
      match r, hpost with
      | none, hpost => rw [show g' = g from hpost]
      | some v, hpost => rw [show g' = _ from hpost]
  | getInode j =>
      match r, hpost with
      | .error _, hpost => rw [show g' = g from hpost]
      | .ok none, hpost => rw [show g' = g from hpost]
      | .ok (some v), hpost => rw [show g' = _ from hpost]
  | beginWrite | dropBatch | nowSecs | push op | scanDeltas j => rw [show g' = _ from hpost]
  | _ => cases hpre

/-! ## The programs keep their contracts -/

section

variable {i : Nat} {t : FileCall} {g : Progress} {α : Type} {E : Progress → Prop} {Q : α → Progress → Prop}

/-- Storing a new record: the commit may fail, and then nothing of the transaction is left. -/
theorem wpE_store {iv raw : InodeValue} {rest : Op α} (hput : g.put = none) (hpend : g.pending = none)
    (hrep : g.reported = none) (hread : g.read = some raw) (hsize : iv.size = t.resize g raw.size)
    (hE : E { g with read := none, pending := none })
    (h : raw.size ≤ t.resize g raw.size → wpE (serverContract i t) E rest Q
      { g with read := none, pending := none, put := some iv, reported := some (t.target g) }) :
    wpE (serverContract i t) E (do push (.putInode i iv); commit; rest) Q g := by
  rw [wpE_bind]
  refine ⟨⟨hput, hpend, raw, iv, rfl, hread, hsize⟩, fun _ g₁ h₁ => ?_⟩
  have h₁ : g₁ = { g with pending := some iv } := h₁
  subst h₁
  show wpE _ _ (commit >>= _) _ _
  rw [wpE_bind]
  refine ⟨⟨hput, rfl, hrep⟩, fun r g₂ h₂ => ?_⟩
  cases r with
  | error x =>
      have h₂ : g₂ = _ := h₂
      rw [h₂]
      exact hE
  | ok _ =>
      obtain ⟨h₂, hgrow⟩ := h₂
      subst h₂
      have htarget : t.target { g with pending := some iv } = t.target g := by cases t <;> rfl
      have hresize : t.resize { g with pending := some iv } raw.size = t.resize g raw.size := by cases t <;> rfl
      have hgrow := hgrow raw hread
      rw [hresize] at hgrow
      have hrest := h hgrow
      rw [← htarget] at hrest
      exact hrest

/-- Reading the record under its lock. -/
theorem wpE_lockRecord {rest : InodeValue → Op α} (hput : g.put = none) (hpend : g.pending = none) (hE : E g)
    (h : ∀ raw, wpE (serverContract i t) E (rest raw) Q { g with read := some raw }) :
    wpE (serverContract i t) E (do let raw ← orNotFound (← getForUpdateInode i); rest raw) Q g := by
  rw [wpE_bind]
  refine ⟨⟨rfl, hput, hpend⟩, fun r g₁ h₁ => ?_⟩
  match r with
  | .error x =>
      have h₁ : g₁ = g := h₁
      rw [h₁]
      exact hE
  | .ok none =>
      have h₁ : g₁ = g := h₁
      rw [h₁]
      exact hE
  | .ok (some raw) =>
      have h₁ : g₁ = _ := h₁
      rw [h₁]
      exact h raw

/-- Between attempts: nothing was stored. -/
def Progress.Idle (g g₀ : Progress) : Prop := g.put = none ∧ g.reported = none ∧ g.written = g₀.written

/-- An attempt that leaves nothing behind can be given up. -/
theorem idle_dropped {g₀ : Progress} (h : g.Idle g₀) :
    (serverContract i t).pre .dropBatch g ∧ ∀ g', (serverContract i t).post .dropBatch g () g' → g'.Idle g₀ := by
  refine ⟨h.1, fun g' h' => ?_⟩
  have h' : g' = _ := h'
  rw [h']
  exact h

theorem target_congr {g g' : Progress} (h : g'.written = g.written) : t.target g' = t.target g := by
  cases t with
  | write k j off data flags => unfold FileCall.target; rw [h]
  | fallocate k j off len mode => rfl

/-- A transaction that rewrites the record in one attempt or in several. -/
theorem wpE_rewriting {body : Op α} (hput : g.put = none) (hrep : g.reported = none)
    (h : ∀ g₁ : Progress, g₁.Idle g → g₁.read = none → g₁.pending = none →
      wpE (serverContract i t)
        (fun g₂ => (serverContract i t).pre .dropBatch g₂ ∧
          ∀ g₃, (serverContract i t).post .dropBatch g₂ () g₃ → g₃.Idle g) body
        (fun a g₂ => (serverContract i t).pre .dropBatch g₂ ∧
          ∀ g₃, (serverContract i t).post .dropBatch g₂ () g₃ → Q a g₃) g₁) :
    wpE (serverContract i t) (fun g' => g'.put = none) (executeWithRetry body) Q g := by
  refine wpE_mono (fun _ _ hq => hq) (fun _ hI => hI.1)
    (wpE_retry_of (I := fun g' : Progress => g'.Idle g) (fun _ hI => hI.1) (fun _ hI => hI) ?_ _ g ⟨hput, hrep, rfl⟩)
  intro g₀ hI g₁ h₁
  have h₁ : g₁ = _ := h₁
  rw [h₁]
  exact h _ hI rfl rfl

theorem wpE_reportWrite {newSize : Nat} (mtime : Nat) (hw : t.isWrite = true) (hput : g.put = none)
    (hrep : g.reported = none) (hsize : newSize = t.target g) :
    wpE (serverContract i t) (fun g' => g'.put = none) (reportWrite i newSize mtime)
      (fun _ g' => g'.put = none ∧ g'.written = g.written ∧ g'.reported = some (t.target g)) g := by
  refine wpE_rewriting hput hrep fun g₁ hI hread hpend => ?_
  have htarget : t.target g₁ = t.target g := target_congr hI.2.2
  refine wpE_lockRecord hI.1 hpend (idle_dropped hI) fun raw => ?_
  refine wpE_store hI.1 hpend hI.2.1 rfl ?_ (idle_dropped hI) fun _ => ?_
  · cases t with
    | write k j off data flags =>
        show max raw.size newSize = max raw.size (FileCall.target g₁ (.write k j off data flags))
        rw [htarget, hsize]
    | fallocate k j off len mode => cases hw
  · refine ⟨⟨rfl, Or.inl rfl⟩, fun _ g₂ h₂ => ?_⟩
    have h₂ : g₂ = _ := h₂
    rw [h₂]
    refine ⟨rfl, fun g₃ h₃ => ?_⟩
    have h₃ : g₃ = _ := h₃
    rw [h₃]
    refine ⟨rfl, hI.2.2, ?_⟩
    exact congrArg some (target_congr (g := g) hI.2.2)

/-- The end of `setattr`'s transaction, with the flag that it returns. -/
theorem wpE_storeSized {raw : InodeValue} (sized : InodeValue) (flag : Bool) (ts : Nat) {g₀ : Progress}
    (hI : g.Idle g₀) (hpend : g.pending = none) (hread : g.read = some raw)
    (hsize : sized.size = t.resize g raw.size) (hflag : raw.size ≤ t.resize g raw.size → flag = false) :
    wpE (serverContract i t)
      (fun g₂ => (serverContract i t).pre .dropBatch g₂ ∧
        ∀ g₃, (serverContract i t).post .dropBatch g₂ () g₃ → g₃.Idle g₀)
      (do
        push (.putInode i { sized with ctime := ts })
        commit
        cachePut i { sized with ctime := ts }
        return (InodeValue.toAttr { sized with ctime := ts }, flag))
      (fun a g₂ => (serverContract i t).pre .dropBatch g₂ ∧
        ∀ g₃, (serverContract i t).post .dropBatch g₂ () g₃ →
          g₃.put = none ∧ g₃.reported = some (t.target g) ∧ a.2 = false) g := by
  refine wpE_store hI.1 hpend hI.2.1 hread hsize (idle_dropped hI) fun hgrow => ?_
  rw [wpE_bind]
  refine ⟨⟨rfl, Or.inl rfl⟩, fun _ g₂ h₂ => ?_⟩
  have h₂ : g₂ = _ := h₂
  rw [h₂]
  refine ⟨rfl, fun g₃ h₃ => ?_⟩
  have h₃ : g₃ = _ := h₃
  rw [h₃]
  exact ⟨rfl, rfl, hflag hgrow⟩

/-- Extending: the size is set to the target, and when that is no truncation none is asked for. -/
theorem wpE_extend (hw : t.isWrite = false) (hput : g.put = none) (hrep : g.reported = none) :
    wpE (serverContract i t) (fun g' => g'.put = none) (setattr i { size := some (t.target g) })
      (fun resp g' => g'.put = none ∧ g'.reported = some (t.target g) ∧ resp.needsTruncate = none) g := by
  unfold setattr
  rw [wpE_bind]
  refine wpE_rewriting hput hrep fun g₁ hI hread hpend => ?_
  refine wpE_lockRecord hI.1 hpend (idle_dropped hI) fun raw => ?_
  rw [wpE_bind]
  refine (wpE_lift (Prog.perform Eff.nowSecs)).2 ⟨hI.1, fun (ts : Nat) g₂ h₂ => ?_⟩
  have h₂ : g₂ = { g₁ with read := some raw } := h₂
  subst h₂
  obtain ⟨k, j, off, len, mode, rfl⟩ : ∃ k j off len mode, t = .fallocate k j off len mode := by
    cases t with
    | write => cases hw
    | fallocate k j off len mode => exact ⟨k, j, off, len, mode, rfl⟩
  have hreq : ({ size := some (off + len) } : SetAttrRequest).size = some (off + len) := rfl
  obtain ⟨hsize, hflag⟩ := SetAttrRequest.applySize_some hreq ts raw
  have hnot : raw.size ≤ off + len → _ = false := fun hle => hflag.trans (decide_eq_false (Nat.not_lt.2 hle))
  have hstore := wpE_storeSized (i := i) (t := .fallocate k j off len mode) (g := { g₁ with read := some raw })
    _ _ ts hI hpend rfl hsize hnot
  refine wpE_mono ?_ (fun _ h => h) hstore
  rintro ⟨attr, flag⟩ g₂ ⟨hpre, h₂⟩
  refine ⟨hpre, fun g₃ h₃ => ?_⟩
  obtain ⟨hp, hr, ha⟩ := h₂ g₃ h₃
  cases ha
  exact ⟨hp, hr, rfl⟩

/-- `getattr` answers a size that the file has had. -/
theorem wpE_getattr (hw : t.isWrite = false) (hput : g.put = none) (hrep : g.reported = none) :
    wpE (serverContract i t) (fun g' => g'.put = none) (getattr i)
      (fun a g' => g'.put = none ∧ g'.reported = none ∧ a.size ≤ g'.floor) g := by
  unfold getattr
  rw [wpE_bind]
  refine wpE_mono (Q := fun (iv : InodeValue) (g' : Progress) =>
    g'.put = none ∧ g'.reported = none ∧ iv.size ≤ g'.floor)
    (fun iv g' h => h) (fun _ h => h) ?_
  unfold loadInode
  rw [wpE_bind]
  refine (wpE_lift (Prog.perform (Eff.cacheGet i))).2 ⟨⟨rfl, hput⟩, fun o g₁ h₁ => ?_⟩
  match o with
  | some v =>
      have h₁ : g₁ = _ := h₁
      rw [h₁]
      exact ⟨hput, hrep, Nat.le_max_right _ _⟩
  | none =>
      have h₁ : g₁ = g := h₁
      subst h₁
      show wpE _ _ (getInode i >>= _) _ _
      rw [wpE_bind]
      refine ⟨⟨rfl, hput⟩, fun r g₂ h₂ => ?_⟩
      match r with
      | .error x =>
          have h₂ : g₂ = g₁ := h₂
          rw [h₂]
          exact hput
      | .ok none =>
          have h₂ : g₂ = g₁ := h₂
          rw [h₂]
          exact hput
      | .ok (some base) =>
          have h₂ : g₂ = { g₁ with floor := max g₁.floor base.size } := h₂
          subst h₂
          show wpE _ _ (scanDeltas i >>= _) _ _
          rw [wpE_bind]
          refine ⟨⟨rfl, hput⟩, fun r g₃ h₃ => ?_⟩
          cases r with
          | error x =>
              have h₃ : g₃ = _ := h₃
              rw [h₃]
              exact hput
          | ok ds =>
              have h₃ : g₃ = _ := h₃
              subst h₃
              have hle : (foldDeltas base ds).size ≤ max g₁.floor base.size := by
                rw [foldDeltas_size]
                exact Nat.le_max_right _ _
              show wpE _ _ (cachePut i _ >>= _) _ _
              rw [wpE_bind]
              refine ⟨⟨rfl, Or.inr ⟨hw, hput, hle⟩⟩, fun _ g₄ h₄ => ?_⟩
              have h₄ : g₄ = _ := h₄
              rw [h₄]
              exact ⟨rfl, hrep, hle⟩

end

section

variable {i srv : Nat} {g : Progress}

/-- What a call has achieved when it returns. -/
def FileCall.achieves (t : FileCall) (reply : FileReply) (g : Progress) : Prop :=
  g.put = none ∧ match t, reply with
    | .write _ _ off _ _, .written (.ok n) => g.written = some n ∧ g.reported = some (off + n)
    | .fallocate _ _ off len mode, .allocated (.ok _) => mode = 0 → off + len ≤ g.floor ∨ g.reported = some (off + len)
    | _, _ => True

theorem wpE_write (k off : Nat) (data : List Byte) (flags : Nat) :
    wpE (clientContract i srv (.write k i off data flags)) (fun g' => g'.put = none)
      (VfsCore.write i off data flags)
      (fun n g' => g'.put = none ∧ g'.written = some n ∧ g'.reported = some (off + n)) {} := by
  unfold VfsCore.write
  rw [wpE_bind]
  refine (wpE_lift (Prog.perform (VfsEff.resolveData i))).2 ⟨⟨rfl, rfl⟩, fun (r : Nat) g₁ h₁ => ?_⟩
  obtain ⟨rfl, rfl⟩ := h₁
  show wpE _ _ (VfsOp.writeData _ i off data >>= _) _ _
  rw [wpE_bind]
  refine ⟨⟨rfl, rfl, rfl, k, off, data, flags, rfl, rfl⟩, fun r g₂ h₂ => ?_⟩
  cases r with
  | error x =>
      have h₂ : g₂ = {} := h₂
      rw [h₂]
      rfl
  | ok n =>
      have h₂ : g₂ = { written := some n } := h₂
      subst h₂
      show wpE _ _ (VfsOp.eff .nowSecs >>= _) _ _
      rw [wpE_bind]
      refine (wpE_lift (Prog.perform VfsEff.nowSecs)).2 ⟨⟨rfl, trivial⟩, fun (ts : Nat) g₃ h₃ => ?_⟩
      have h₃ : g₃ = { written := some n } := h₃
      subst h₃
      show wpE _ _ (VfsOp.metadata (.reportWrite i (off + n) ts) >>= _) _ _
      rw [wpE_bind]
      refine ⟨⟨rfl, rfl, rfl, rfl, rfl⟩, fun r g₄ h₄ => ?_⟩
      cases r with
      | error x => exact h₄
      | ok _ =>
          obtain ⟨hput, hwritten, hrep⟩ := h₄
          refine (wpE_bind (VfsOp.eff (.writtenInsert i)) _ _ _).2
            ((wpE_lift (Prog.perform (VfsEff.writtenInsert i))).2 ⟨⟨hput, trivial⟩, fun _ g₅ h₅ => ?_⟩)
          have h₅ : g₅ = g₄ := h₅
          rw [h₅]
          exact ⟨hput, hwritten, hrep⟩

theorem wpE_fallocate (k off len mode : Nat) :
    wpE (clientContract i srv (.fallocate k i off len mode)) (fun g' => g'.put = none)
      (fallocate i off len mode)
      (fun _ g' => g'.put = none ∧ (mode = 0 → off + len ≤ g'.floor ∨ g'.reported = some (off + len))) {} := by
  unfold fallocate
  refine wpE_guard (fun _ => rfl) fun _ => ?_
  split
  · rename_i hmode
    refine ⟨rfl, fun h0 => ?_⟩
    subst h0
    cases hmode
  · refine (wpE_bind (VfsOp.metadata (.getattr i)) _ _ _).2 ⟨⟨rfl, rfl, rfl, rfl⟩, fun r g₁ h₁ => ?_⟩
    cases r with
    | error x => exact h₁
    | ok attr =>
        obtain ⟨hput, hrep, hle⟩ := h₁
        show wpE _ _ (if off + len > FileAttr.size attr then _ else _) _ _
        split
        · rw [wpE_bind]
          refine (wpE_bind (VfsOp.metadata (.setattr i { size := some (off + len) })) _ _ _).2
            ⟨⟨hput, rfl, rfl, rfl, hrep⟩, fun r g₂ h₂ => ?_⟩
          cases r with
          | error x => exact h₂
          | ok resp =>
              obtain ⟨hput, hrep, hnone⟩ := h₂
              -- nothing is to be truncated, so no data request follows
              obtain ⟨attr', needsTruncate⟩ := resp
              cases hnone
              exact ⟨hput, fun _ => Or.inr hrep⟩
        · rename_i hge
          exact ⟨hput, fun _ => Or.inl (by omega)⟩

end

/-! ## Calls with their metadata requests carried out -/

/-- The contract of a call, on the effects of client and server. -/
def FileCall.contract (srv : Nat) (t : FileCall) : Contract ClientEff ClientEff.Res Progress where
  pre e g := match e with
    | .server e => (serverContract t.inode t).pre e g
    | .vfs k e => k = t.client ∧ e.isMetadata = false ∧ (clientContract t.inode srv t).pre e g
  post e g r g' := match e, r with
    | .server e, r => (serverContract t.inode t).post e g r g'
    | .vfs _ e, r => (clientContract t.inode srv t).post e g r g'

section

variable {srv : Nat} {t : FileCall} {g : Progress}

theorem wp_server {α : Type} {x : Prog Eff Eff.Res α} {Q : α → Progress → Prop}
    (h : wp (serverContract t.inode t) x Q g) :
    wp (t.contract srv) (Prog.expand (fun e => ClientEff.perform (.server e)) x) Q g := by
  refine wp_expand (C := serverContract t.inode t) (fun e l hpre => ?_) x g h
  exact ⟨hpre, fun _ _ hpost => hpost⟩

/-- A metadata request is answered as the client relies on. -/
theorem wp_carryOut (cfg : Config) (e : VfsEff) (g : Progress)
    (hpre : (clientContract t.inode srv t).pre e g) :
    wp (t.contract srv) (e.carryOut cfg t.client) (fun r g' => (clientContract t.inode srv t).post e g r g') g := by
  obtain ⟨hput, hpre'⟩ := hpre
  cases e with
  | metadata m =>
      refine wp_server ?_
      cases m with
      | reportWrite j newSize mtime =>
          obtain ⟨rfl, hw, hsize, hrep⟩ := hpre'
          refine wp_mono (fun r g' hr => ?_) (wpE_reportWrite mtime hw hput hrep hsize)
          cases r <;> exact hr
      | getattr j =>
          obtain ⟨rfl, hw, hrep⟩ := hpre'
          refine wp_mono (fun r g' hr => ?_) (wpE_getattr hw hput hrep)
          cases r <;> exact hr
      | setattr j req =>
          obtain ⟨rfl, hw, rfl, hrep⟩ := hpre'
          refine wp_mono (fun r g' hr => ?_) (wpE_extend hw hput hrep)
          cases r <;> exact hr
      | _ => cases hpre'
  | _ => exact ⟨⟨rfl, rfl, hput, hpre'⟩, fun _ _ hpost => hpost⟩

/-- **Every call keeps its contract.** -/
theorem wp_body (cfg : Config) (t : FileCall) : wp (t.contract srv) (t.body cfg) t.achieves {} := by
  cases t with
  | write k i off data flags =>
      refine (wp_bind _ _ _ _ _).2 (wp_expand (wp_carryOut cfg) _ _ (wp_mono (fun r g' hr => ?_)
        (wpE_write k off data flags)))
      cases r with
      | error x => exact ⟨hr, trivial⟩
      | ok n => exact hr
  | fallocate k i off len mode =>
      refine (wp_bind _ _ _ _ _).2 (wp_expand (wp_carryOut cfg) _ _ (wp_mono (fun r g' hr => ?_)
        (wpE_fallocate k off len mode)))
      cases r with
      | error x => exact ⟨hr, trivial⟩
      | ok _ => exact hr

end

end RucksFs
