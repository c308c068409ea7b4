import RucksFs.Server.Commits
import RucksFs.Server.Walk

/-!
# The rows a call writes

`push` takes the lock of the row it writes and panics when it cannot have it.  What a call has locked before it
writes a row, and why nobody else should have locked the row when it has not:

* `LockWatch` — the rows locked, the inodes read from entries or allocated, the delta numbers taken or scanned.
* `LockWatch.Covers` — a row that may be written: locked by `get_for_update`, of an inode that is, or new; `release`
  alone writes the record of an inode it has not locked.
* `Explained` — why each locked row is locked.
* `Call.locks_first` — every call writes covered rows only.
-/

set_option autoImplicit false

namespace RucksFs

open Prog Op

/-! ## Following the locks of a call -/

/-- The arguments whose records a call may lock.  Only the build without deltas locks the record of every
parent. -/
def Call.inodes (cfg : Config) : Call → List Inode
  | .lookup .. | .getattr .. | .readdir .. | .readlink .. => []
  | .create p _ _ _ _ | .createAndOpen p _ _ _ _ _ | .mkdir p _ _ _ _ | .symlink p _ _ _ _ | .unlink p _
  | .rmdir p _ =>
      match cfg.build with
      | .delta => []
      | .noDelta => [p]
  | .setattr i _ | .openFile i _ | .reportWrite i _ _ | .release i | .forceCompactInode i => [i]
  | .rename p _ np _ => [p, np]
  | .link p _ t => [p, t]

theorem Call.mem_inodes_of_parent {cfg : Config} (hb : cfg.build = .noDelta) {c : Call} {p : Inode}
    (hp : p ∈ c.parents) : p ∈ c.inodes cfg := by
  cases c <;> simp_all [Call.parents, Call.folds, Call.inodes]

structure LockWatch where
  locks : List Row := []
  /-- Inodes that the entries read under lock name. -/
  reads : List Inode := []
  fresh : List Inode := []
  /-- Delta numbers taken, each with its inode. -/
  numbers : List (Inode × Nat) := []
  /-- The inode of a compaction and the numbers it has scanned. -/
  scanned : Option (Inode × List Nat) := none
  /-- The inode whose deferred deletion is due. -/
  due : Option Inode := none
  /-- Nothing is written yet. -/
  clean : Bool := true

namespace LockWatch

variable {c : Call} {k : LockWatch}

def upd (g : LockWatch) : (e : Eff) → e.Res → LockWatch
  | .beginWrite, _ => { scanned := g.scanned, due := g.due }
  | .dropBatch, _ | .commit, _ => { due := g.due }
  | .getForUpdateDirEntry p n, .ok o =>
      { g with locks := .dirEntry p n :: g.locks, reads := (o.map (·.inode)).toList ++ g.reads }
  | .getForUpdateInode i, .ok _ => { g with locks := .inode i :: g.locks }
  | .push op, _ => { g with locks := op.row :: g.locks, clean := false }
  | .alloc, i => { g with fresh := i :: g.fresh }
  | .nextSeq i _, q => { g with numbers := (i, q) :: g.numbers }
  | .scanDeltasWithKeys i, .ok kvs => { g with scanned := some (i, kvs.map Prod.fst) }
  | .checkAndClearDeferredDelete i, true => { g with due := some i }
  | _, _ => g

/-- A row that may be written. -/
def Covers (c : Call) (g : LockWatch) : BatchOp → Prop
  | .putInode i _ => .inode i ∈ g.locks ∨ i ∈ g.fresh
  | .deleteInode i => .inode i ∈ g.locks ∨ c = .release i ∧ g.due = some i
  | .putDirEntry p n _ | .deleteDirEntry p n => .dirEntry p n ∈ g.locks
  | .putDataLocation i _ | .deleteDataLocation i | .putSymlink i _ | .deleteSymlink i => .inode i ∈ g.locks
  | .putDelta i q _ => (i, q) ∈ g.numbers
  | .deleteDelta i q => .inode i ∈ g.locks ∧ ∃ qs, g.scanned = some (i, qs) ∧ q ∈ qs

/-- Obligations of call `c`. -/
def Pre (cfg : Config) (c : Call) (e : Eff) (g : LockWatch) : Prop :=
  match e with
  | .push op => g.Covers c op
  | .getForUpdateDirEntry _ _ => g.clean = true
  | .getForUpdateInode i => i ∈ c.inodes cfg ∨ i ∈ g.reads
  | .nextSeq i _ => i ∈ c.parents
  | .scanDeltasWithKeys i => c = .forceCompactInode i ∧ g.locks = []
  | .clearDeltas _ => g.numbers = [] ∧ g.scanned = none
  | _ => True

/-- Between transactions. -/
def Idle (g : LockWatch) : Prop :=
  g.locks = [] ∧ g.numbers = [] ∧ ∀ i qs, g.scanned = some (i, qs) → qs = []

theorem Idle.empty (i : Option Inode) : Idle { due := i } := ⟨rfl, rfl, nofun⟩

/-- Why each locked row is locked. -/
structure Explained (cfg : Config) (c : Call) (g : LockWatch) : Prop where
  inode : ∀ i, .inode i ∈ g.locks → i ∈ c.inodes cfg ∨ i ∈ g.reads ∨ i ∈ g.fresh
  location : ∀ i, .dataLocation i ∈ g.locks → .inode i ∈ g.locks
  symlink : ∀ i, .symlink i ∈ g.locks → .inode i ∈ g.locks
  delta : ∀ i q, .delta i q ∈ g.locks →
    (i, q) ∈ g.numbers ∨ .inode i ∈ g.locks ∧ ∃ qs, g.scanned = some (i, qs) ∧ q ∈ qs
  numbers : ∀ i q, (i, q) ∈ g.numbers → i ∈ c.parents
  scanned : ∀ i qs, g.scanned = some (i, qs) → c = .forceCompactInode i

theorem Explained.empty (cfg : Config) (c : Call) (i : Option Inode) : Explained cfg c { due := i } :=
  ⟨nofun, nofun, nofun, nofun, nofun, nofun⟩

namespace Explained

variable {cfg : Config} {c : Call} {g : LockWatch} {clean : Bool} {i : Inode}

/-- One more row, which is neither a record nor one of its side rows. -/
theorem entry (h : g.Explained cfg c) (p : Inode) (n : Name) {reads : List Inode} (hreads : ∀ i ∈ g.reads, i ∈ reads) :
    Explained cfg c { g with locks := .dirEntry p n :: g.locks, reads := reads, clean := clean } := by
  refine ⟨fun i hi => ?_, fun i hi => ?_, fun i hi => ?_, fun i q hi => ?_, h.numbers, h.scanned⟩
  · rcases h.inode i (by simpa using hi) with ha | hr | hf
    · exact Or.inl ha
    · exact Or.inr (Or.inl (hreads i hr))
    · exact Or.inr (Or.inr hf)
  · exact List.mem_cons_of_mem _ (h.location i (by simpa using hi))
  · exact List.mem_cons_of_mem _ (h.symlink i (by simpa using hi))
  · exact (h.delta i q (by simpa using hi)).imp id fun ⟨hl, hq⟩ => ⟨List.mem_cons_of_mem _ hl, hq⟩

theorem record (h : g.Explained cfg c) (hi : i ∈ c.inodes cfg ∨ i ∈ g.reads ∨ i ∈ g.fresh) :
    Explained cfg c { g with locks := .inode i :: g.locks, clean := clean } := by
  refine ⟨fun j hj => ?_, fun j hj => ?_, fun j hj => ?_, fun j q hj => ?_, h.numbers, h.scanned⟩
  · rcases List.mem_cons.1 hj with e | hj
    · cases e
      exact hi
    · exact h.inode j hj
  · exact List.mem_cons_of_mem _ (h.location j (by simpa using hj))
  · exact List.mem_cons_of_mem _ (h.symlink j (by simpa using hj))
  · exact (h.delta j q (by simpa using hj)).imp id fun ⟨hl, hq⟩ => ⟨List.mem_cons_of_mem _ hl, hq⟩

/-- A side row of a locked record. -/
theorem side (h : g.Explained cfg c) (hi : .inode i ∈ g.locks) {row : Row}
    (hrow : row = .dataLocation i ∨ row = .symlink i) :
    Explained cfg c { g with locks := row :: g.locks, clean := clean } := by
  refine ⟨fun j hj => ?_, fun j hj => ?_, fun j hj => ?_, fun j q hj => ?_, h.numbers, h.scanned⟩
  · rcases List.mem_cons.1 hj with e | hj
    · rcases hrow with rfl | rfl <;> cases e
    · exact h.inode j hj
  · apply List.mem_cons_of_mem
    rcases List.mem_cons.1 hj with e | hj
    · rcases hrow with rfl | rfl <;> cases e
      exact hi
    · exact h.location j hj
  · apply List.mem_cons_of_mem
    rcases List.mem_cons.1 hj with e | hj
    · rcases hrow with rfl | rfl <;> cases e
      exact hi
    · exact h.symlink j hj
  · rcases List.mem_cons.1 hj with e | hj
    · rcases hrow with rfl | rfl <;> cases e
    · exact (h.delta j q hj).imp id fun ⟨hl, hq⟩ => ⟨List.mem_cons_of_mem _ hl, hq⟩

theorem deltaRow (h : g.Explained cfg c) {q : Nat}
    (hi : (i, q) ∈ g.numbers ∨ .inode i ∈ g.locks ∧ ∃ qs, g.scanned = some (i, qs) ∧ q ∈ qs) :
    Explained cfg c { g with locks := .delta i q :: g.locks, clean := clean } := by
  refine ⟨fun j hj => h.inode j (by simpa using hj), fun j hj => ?_, fun j hj => ?_, fun j q' hj => ?_,
    h.numbers, h.scanned⟩
  · exact List.mem_cons_of_mem _ (h.location j (by simpa using hj))
  · exact List.mem_cons_of_mem _ (h.symlink j (by simpa using hj))
  · have hold : (j, q') ∈ g.numbers ∨ .inode j ∈ g.locks ∧ ∃ qs, g.scanned = some (j, qs) ∧ q' ∈ qs := by
      rcases List.mem_cons.1 hj with e | hj
      · cases e
        exact hi
      · exact h.delta j q' hj
    exact hold.imp id fun ⟨hl, hq⟩ => ⟨List.mem_cons_of_mem _ hl, hq⟩

/-- **One effect.** -/
theorem step (h : g.Explained cfg c) (e : Eff) (r : e.Res) (hpre : g.Pre cfg c e) : (g.upd e r).Explained cfg c := by
  cases e with
  | beginWrite => exact ⟨nofun, nofun, nofun, nofun, nofun, h.scanned⟩
  | dropBatch => exact .empty cfg c g.due
  | commit => exact .empty cfg c g.due
  | getForUpdateDirEntry p n =>
      cases r with
      | error x => exact h
      | ok o => exact h.entry p n fun i hi => List.mem_append_right _ hi
  | getForUpdateInode i =>
      cases r with
      | error x => exact h
      | ok o => exact h.record (hpre.imp id Or.inl)
  | push op =>
      cases op with
      | putInode i iv =>
          rcases hpre with hl | hf
          · exact h.record (h.inode i hl)
          · exact h.record (Or.inr (Or.inr hf))
      | deleteInode i =>
          rcases hpre with hl | ⟨rfl, -⟩
          · exact h.record (h.inode i hl)
          · exact h.record (Or.inl List.mem_cons_self)
      | putDirEntry p n v => exact h.entry p n fun _ hi => hi
      | deleteDirEntry p n => exact h.entry p n fun _ hi => hi
      | putDataLocation i v => exact h.side hpre (Or.inl rfl)
      | deleteDataLocation i => exact h.side hpre (Or.inl rfl)
      | putSymlink i v => exact h.side hpre (Or.inr rfl)
      | deleteSymlink i => exact h.side hpre (Or.inr rfl)
      | putDelta i q d => exact h.deltaRow (Or.inl hpre)
      | deleteDelta i q => exact h.deltaRow (Or.inr hpre)
  | alloc => exact ⟨fun i hi => (h.inode i hi).imp id (Or.imp id (List.mem_cons_of_mem _)), h.location, h.symlink,
      h.delta, h.numbers, h.scanned⟩
  | nextSeq i d =>
      refine ⟨h.inode, h.location, h.symlink, fun j q hj => (h.delta j q hj).imp (List.mem_cons_of_mem _) id,
        fun j q hj => ?_, h.scanned⟩
      rcases List.mem_cons.1 hj with e | hj
      · cases e
        exact hpre
      · exact h.numbers j q hj
  | scanDeltasWithKeys i =>
      cases r with
      | error x => exact h
      | ok kvs =>
          obtain ⟨rfl, hnone⟩ := hpre
          refine ⟨h.inode, h.location, h.symlink, fun j q hj => ?_, h.numbers, fun j qs hj => ?_⟩
          · have hj' : .delta j q ∈ g.locks := hj
            rw [hnone] at hj'
            cases hj'
          · cases hj
            rfl
  | checkAndClearDeferredDelete i => cases r <;> exact ⟨h.inode, h.location, h.symlink, h.delta, h.numbers, h.scanned⟩
  | _ => exact h

end Explained

/-! ## What a part of an operation knows -/

/-- What is known by `k` holds of `g`. -/
structure Knows (k g : LockWatch) : Prop where
  locks : ∀ row ∈ k.locks, row ∈ g.locks
  reads : ∀ i ∈ k.reads, i ∈ g.reads
  fresh : ∀ i ∈ k.fresh, i ∈ g.fresh
  numbers : ∀ x ∈ k.numbers, x ∈ g.numbers
  scanned : ∀ x, k.scanned = some x → g.scanned = some x
  due : ∀ i, k.due = some i → g.due = some i
  clean : k.clean = true → g.clean = true

namespace Knows

variable {k k' g : LockWatch} {c : Call}

theorem refl (g : LockWatch) : g.Knows g :=
  ⟨fun _ h => h, fun _ h => h, fun _ h => h, fun _ h => h, fun _ h => h, fun _ h => h, id⟩

theorem trans {k'' : LockWatch} (h : k.Knows k') (h' : k'.Knows k'') : k.Knows k'' :=
  ⟨fun r hr => h'.locks r (h.locks r hr), fun i hi => h'.reads i (h.reads i hi),
    fun i hi => h'.fresh i (h.fresh i hi), fun x hx => h'.numbers x (h.numbers x hx),
    fun x hx => h'.scanned x (h.scanned x hx), fun i hi => h'.due i (h.due i hi), fun hk => h'.clean (h.clean hk)⟩

theorem covers (h : k.Knows g) {op : BatchOp} (hop : k.Covers c op) : g.Covers c op := by
  cases op with
  | putInode i iv => exact hop.imp (h.locks _) (h.fresh _)
  | deleteInode i => exact hop.imp (h.locks _) fun hr => ⟨hr.1, h.due i hr.2⟩
  | putDirEntry p n v => exact h.locks _ hop
  | deleteDirEntry p n => exact h.locks _ hop
  | putDataLocation i v => exact h.locks _ hop
  | deleteDataLocation i => exact h.locks _ hop
  | putSymlink i v => exact h.locks _ hop
  | deleteSymlink i => exact h.locks _ hop
  | putDelta i q d => exact h.numbers _ hop
  | deleteDelta i q => exact ⟨h.locks _ hop.1, hop.2.imp fun qs hq => ⟨h.scanned _ hq.1, hq.2⟩⟩

/-- One more locked row, on both sides. -/
theorem lock (h : k.Knows g) (row : Row) {b b' : Bool} (hb : b = true → b' = true) :
    Knows { k with locks := row :: k.locks, clean := b } { g with locks := row :: g.locks, clean := b' } :=
  ⟨fun r hr => (List.mem_cons.1 hr).elim (fun e => e ▸ List.mem_cons_self)
    fun hr => List.mem_cons_of_mem _ (h.locks r hr), h.reads, h.fresh, h.numbers, h.scanned, h.due, hb⟩

end Knows

/-- The same when something was written. -/
def written (k : LockWatch) : LockWatch := { k with clean := false }

theorem written_knows (k : LockWatch) : k.written.Knows k :=
  ⟨fun _ h => h, fun _ h => h, fun _ h => h, fun _ h => h, fun _ h => h, fun _ h => h, nofun⟩

theorem written_knows_lock (k : LockWatch) (row : Row) {b : Bool} :
    k.written.Knows { k with locks := row :: k.locks, clean := b } :=
  ⟨fun _ h => List.mem_cons_of_mem _ h, fun _ h => h, fun _ h => h, fun _ h => h, fun _ h => h, fun _ h => h, nofun⟩

theorem Covers.written {op : BatchOp} (h : k.Covers c op) : k.written.Covers c op := by
  cases op <;> exact h

theorem Covers.putEntry {p : Inode} {n : Name} {v : DirValue} (h : .dirEntry p n ∈ k.locks) :
    k.Covers c (.putDirEntry p n v) := h

theorem Covers.deleteEntry {p : Inode} {n : Name} (h : .dirEntry p n ∈ k.locks) : k.Covers c (.deleteDirEntry p n) := h

/-- Nothing is known. -/
def unknown : LockWatch := { clean := false }

theorem unknown_knows (g : LockWatch) : unknown.Knows g :=
  ⟨nofun, nofun, nofun, nofun, nofun, nofun, nofun⟩

end LockWatch

/-! ## Walking through the calls -/

/-- The contract of call `c`. -/
def locking (cfg : Config) (c : Call) : Contract Eff Eff.Res LockWatch :=
  following (fun e g => g.Pre cfg c e) LockWatch.upd fun _ _ _ => True

/-- Effects that lock nothing and take no numbers. -/
def Eff.plain : Eff → Bool
  | .beginWrite | .getForUpdateDirEntry .. | .getForUpdateInode .. | .push .. | .commit | .dropBatch | .alloc
  | .nextSeq .. | .scanDeltasWithKeys .. | .clearDeltas .. | .checkAndClearDeferredDelete .. => false
  | _ => true

theorem Eff.plain_pre {e : Eff} (he : e.plain = true) (cfg : Config) (c : Call) (g : LockWatch) : g.Pre cfg c e := by
  cases e <;> trivial

theorem Eff.plain_upd {e : Eff} (he : e.plain = true) (g : LockWatch) (r : e.Res) : g.upd e r = g := by
  cases e <;> first | rfl | cases he

/-- Effects between transactions. -/
def Eff.idles : Eff → Bool
  | .dropBatch | .clearDeltas .. => true
  | e => e.plain

theorem Only.idles {α : Type} {fails : Prop} {x : Op α} (h : Only Eff.settles fails x) : Only Eff.idles fails x :=
  h.mono fun e he => by cases e <;> first | rfl | cases he

/-- With `d` due and what `k` knows, the part `x` writes covered rows only, and then `k'` is known. -/
def Locked {α : Type} (cfg : Config) (c : Call) (d : Option Inode) (k : LockWatch) (x : Op α) (k' : α → LockWatch) : Prop :=
  ∀ g : LockWatch, g.due = d → k.Knows g →
    wpE (locking cfg c) (fun g' => g'.due = d) x (fun a g' => g'.due = d ∧ (k' a).Knows g') g

/-- From one idle state to the same. -/
def Attempts {α : Type} (cfg : Config) (c : Call) (d : Option Inode) (x : Op α) : Prop :=
  wpE (locking cfg c) (fun g => g = { due := d }) x (fun _ g => g = { due := d }) { due := d }

section

variable {α β : Type} {cfg : Config} {c : Call} {d : Option Inode} {k : LockWatch}

theorem locking_plain {fails : Prop} {x : Op α} (hx : Only Eff.plain fails x) (g : LockWatch) :
    wpE (locking cfg c) (fun g' => g' = g) x (fun _ g' => g' = g) g := by
  refine wpE_mono (fun _ _ h => h) (fun _ h => h.2) (hx.kept (I := fun g' => g' = g) ?_ ?_ g rfl)
  · intro e g' he _
    exact Eff.plain_pre he cfg c g'
  · rintro e g' r g'' he rfl ⟨rfl, -⟩
    exact Eff.plain_upd he _ r

namespace Attempts

variable {x : Op α}

theorem of_idle {fails : Prop} (hx : Only Eff.idles fails x) : Attempts cfg c d x := by
  refine wpE_mono (fun _ _ h => h) (fun _ h => h.2)
    (hx.kept (C := locking cfg c) (I := fun g => g = { due := d }) ?_ ?_ _ rfl)
  · rintro e g he rfl
    cases e <;> trivial
  · rintro e g r g' he rfl ⟨rfl, -⟩
    cases e <;> first | rfl | cases he

theorem bind {f : α → Op β} (hx : Attempts cfg c d x) (hf : ∀ a, Attempts cfg c d (f a)) :
    Attempts cfg c d (x >>= f) := by
  unfold Attempts
  rw [wpE_bind]
  refine wpE_mono (fun a g h => ?_) (fun _ h => h) hx
  rw [h]
  exact hf a

theorem before {f : α → Op β} (hx : Only Eff.idles True x) (hf : ∀ a, Attempts cfg c d (f a)) :
    Attempts cfg c d (x >>= f) := bind (of_idle hx) hf

theorem after {f : α → Op β} (hx : Attempts cfg c d x) (hf : ∀ a, Only Eff.idles True (f a)) :
    Attempts cfg c d (x >>= f) := bind hx fun a => of_idle (hf a)

theorem idle (hx : Attempts cfg c d x) : wpE (locking cfg c) LockWatch.Idle x (fun _ g => g.Idle) { due := d } := by
  refine wpE_mono (fun _ g h => ?_) (fun g h => ?_) hx
  · rw [h]
    exact .empty d
  · rw [h]
    exact .empty d

/-- A call without a transaction. -/
theorem reading (hx : Only Eff.idles True x) :
    wpE (locking cfg c) LockWatch.Idle x (fun _ g => g.Idle) {} := (of_idle hx).idle

theorem settled {f : α → Op β} (hx : Attempts cfg c d x) (hf : ∀ a, Only Eff.settles True (f a)) :
    Attempts cfg c d (x >>= f) := hx.after fun a => (hf a).idles

end Attempts

namespace Locked

variable {x : Op α} {p : Inode}

theorem pure (a : α) : Locked cfg c d k (pure a) fun _ => k := fun _ hd hg => ⟨hd, hg⟩

theorem bind {f : α → Op β} {k' : α → LockWatch} {k'' : β → LockWatch} (hx : Locked cfg c d k x k')
    (hf : ∀ a, Locked cfg c d (k' a) (f a) k'') : Locked cfg c d k (x >>= f) k'' := by
  intro g hd hg
  rw [wpE_bind]
  exact wpE_mono (fun a g' h => hf a g' h.1 h.2) (fun _ h => h) (hx g hd hg)

theorem guard {q : Prop} [Decidable q] {e : FsError} {f : Unit → Op α} {k' : α → LockWatch}
    (hf : ¬q → Locked cfg c d k (f ()) k') : Locked cfg c d k (if q then throw e >>= f else f ()) k' :=
  fun g hd hg => wpE_guard (fun _ => hd) fun hq => hf hq g hd hg

theorem ite {q : Prop} [Decidable q] {y : Op α} {k' : α → LockWatch} (hx : Locked cfg c d k x k')
    (hy : Locked cfg c d k y k') : Locked cfg c d k (if q then x else y) k' := by
  split
  · exact hx
  · exact hy

/-- More may be known before, less afterwards. -/
theorem mono {k₁ : LockWatch} {k' k'' : α → LockWatch} (hx : Locked cfg c d k₁ x k') (h₁ : k₁.Knows k)
    (hk : ∀ a, (k'' a).Knows (k' a)) : Locked cfg c d k x k'' := fun g hd hg =>
  wpE_mono (fun a _ h => ⟨h.1, (hk a).trans h.2⟩) (fun _ h => h) (hx g hd (h₁.trans hg))

theorem plain {fails : Prop} (hx : Only Eff.plain fails x) : Locked cfg c d k x fun _ => k := by
  intro g hd hg
  refine wpE_mono (fun _ g' h => ?_) (fun g' h => ?_) (locking_plain (c := c) hx g)
  · rw [h]
    exact ⟨hd, hg⟩
  · rw [h]
    exact hd

theorem effect {e : Eff} (he : e.plain = true) : Locked cfg c d k (eff e) fun _ => k :=
  plain (show Only Eff.plain False (eff e) from Only.eff he)

theorem now : Locked cfg c d k nowSecs fun _ => k := effect rfl

theorem found (o : Option α) : Locked cfg c d k (orNotFound o) fun _ => k := plain (Only.orNotFound o)

theorem emptyCheck (i : Inode) : Locked cfg c d k (isDirEmpty i) fun _ => k :=
  plain (Only.of_perform (e := .isDirEmpty i) (k := fun r => r) rfl rfl)

theorem entry (p : Inode) (n : Name) (hk : k.clean = true) : Locked cfg c d k (getForUpdateDirEntry p n) fun o =>
    { k with locks := .dirEntry p n :: k.locks, reads := (o.map (·.inode)).toList ++ k.reads } := by
  intro g hd hg
  refine follow_getForUpdateDirEntry (hg.clean hk) (fun o _ => ⟨hd, ?_⟩) fun _ => hd
  have h := hg.lock (.dirEntry p n) hg.clean
  refine ⟨h.locks, fun i hi => ?_, h.fresh, h.numbers, h.scanned, h.due, h.clean⟩
  exact (List.mem_append.1 hi).elim (List.mem_append_left _) fun hi => List.mem_append_right _ (hg.reads i hi)

/-- An entry that has to be there. -/
theorem named (p : Inode) (n : Name) {f : DirValue → Op α} {k' : α → LockWatch} (hk : k.clean = true)
    (hf : ∀ v, Locked cfg c d { k with locks := .dirEntry p n :: k.locks, reads := v.inode :: k.reads } (f v) k') :
    Locked cfg c d k (do f (← orNotFound (← getForUpdateDirEntry p n))) k' := by
  refine bind (entry p n hk) fun o => ?_
  cases o with
  | none => exact fun _ hd _ => hd
  | some v => exact hf v

theorem record (i : Inode) (hi : i ∈ c.inodes cfg ∨ i ∈ k.reads) :
    Locked cfg c d k (getForUpdateInode i) fun _ => { k with locks := .inode i :: k.locks } := by
  intro g hd hg
  exact follow_getForUpdateInode (hi.imp id (hg.reads i)) (fun _ _ => ⟨hd, hg.lock _ hg.clean⟩) fun _ => hd

theorem push (op : BatchOp) (hop : k.Covers c op) :
    Locked cfg c d k (push op) fun _ => { k with locks := op.row :: k.locks, clean := false } := by
  intro g hd hg
  exact follow_eff (e := .push op) (hg.covers hop) fun _ _ => ⟨hd, hg.lock _ nofun⟩

theorem alloc : Locked cfg c d k alloc fun i => { k with fresh := i :: k.fresh } := by
  intro g hd hg
  refine follow_eff (e := .alloc) trivial fun i _ => ⟨hd, ?_⟩
  refine ⟨hg.locks, hg.reads, fun j hj => ?_, hg.numbers, hg.scanned, hg.due, hg.clean⟩
  exact (List.mem_cons.1 hj).elim (fun e => e ▸ List.mem_cons_self) fun hj => List.mem_cons_of_mem _ (hg.fresh j hj)

theorem nextSeq (i : Inode) (δ : DeltaOp) (hi : i ∈ c.parents) :
    Locked cfg c d k (nextSeq i δ) fun q => { k with numbers := (i, q) :: k.numbers } := by
  intro g hd hg
  refine follow_eff (e := .nextSeq i δ) hi fun q _ => ⟨hd, ?_⟩
  refine ⟨hg.locks, hg.reads, hg.fresh, fun x hx => ?_, hg.scanned, hg.due, hg.clean⟩
  exact (List.mem_cons.1 hx).elim (fun e => e ▸ List.mem_cons_self) fun hx => List.mem_cons_of_mem _ (hg.numbers x hx)

theorem pushed (op : BatchOp) (hop : k.Covers c op) : Locked cfg c d k (Op.push op) fun _ => k.written :=
  (push op hop).mono (.refl k) fun _ => k.written_knows_lock _

theorem pushes (f : β → BatchOp) : ∀ (k : LockWatch) (bs : List β), (∀ b ∈ bs, k.Covers c (f b)) →
    Locked cfg c d k (bs.forM fun b => Op.push (f b)) fun _ => k.written
  | k, [], _ => fun _ hd hg => ⟨hd, k.written_knows.trans hg⟩
  | k, b :: bs, hbs =>
      bind (pushed (f b) (hbs b List.mem_cons_self)) fun _ =>
        pushes f k.written bs fun b' hb => (hbs b' (List.mem_cons_of_mem b hb)).written

theorem pushDeltas (hp : p ∈ c.parents) :
    ∀ (k : LockWatch) (ds : List DeltaOp), Locked cfg c d k (pushDeltas p ds) fun _ => k.written
  | k, [] => fun _ hd hg => ⟨hd, k.written_knows.trans hg⟩
  | k, δ :: ds => by
      refine bind (nextSeq p δ hp) fun q => bind (push (.putDelta p q δ) List.mem_cons_self) fun _ => ?_
      refine (pushDeltas hp k.written ds).mono ?_ fun _ => .refl _
      exact ⟨fun _ h => List.mem_cons_of_mem _ h, fun _ h => h, fun _ h => h,
        fun _ h => List.mem_cons_of_mem _ h, fun _ h => h, fun _ h => h, nofun⟩

/-- The build without deltas locks the parent's record. -/
theorem parentDeltas (hp : p ∈ c.parents) (ds : List DeltaOp) :
    Locked cfg c d k (batchParentDeltas cfg p ds) fun _ => k.written := by
  unfold batchParentDeltas
  split
  · exact pushDeltas hp k ds
  · rename_i hb
    intro g hd hg
    rw [wpE_bind]
    refine follow_eff (e := .getForUpdateInode p) (Or.inl (Call.mem_inodes_of_parent hb hp)) fun r _ => ?_
    cases r with
    | error x => exact ⟨hd, k.written_knows.trans hg⟩
    | ok o =>
        have hlock := hg.lock (.inode p) hg.clean
        cases o with
        | none => exact ⟨hd, (k.written_knows_lock _).trans hlock⟩
        | some iv =>
            have hput : LockWatch.Covers c { k with locks := .inode p :: k.locks } (.putInode p (foldDeltas iv ds)) :=
              Or.inl List.mem_cons_self
            refine (push _ hput).mono (.refl _) (fun _ => ?_) _ hd hlock
            exact ⟨fun _ h => List.mem_cons_of_mem _ (List.mem_cons_of_mem _ h), fun _ h => h, fun _ h => h,
              fun _ h => h, fun _ h => h, fun _ h => h, nofun⟩

/-- A commit and what settles it. -/
theorem commit {f : Unit → Op α} (hf : Only Eff.settles True (f ())) :
    Locked cfg c d k (commit >>= f) fun _ => .unknown := by
  intro g hd hg
  rw [wpE_bind]
  refine follow_commit trivial (fun _ _ => ?_) fun _ => hd
  refine wpE_mono (fun _ g' h => ?_) (fun g' h => ?_) (Attempts.of_idle hf.idles)
  · rw [h]
    exact ⟨hd, LockWatch.unknown_knows _⟩
  · rw [h]
    exact hd

/-! ### Transactions -/

/-- A transaction that is tried again. -/
theorem attempts {body : Op α} (h : Locked cfg c d { due := d } body fun _ => .unknown) :
    Attempts cfg c d (executeWithRetry body) := by
  refine follow_retry (I := fun g : LockWatch => g = { due := d }) (fun _ _ => trivial) (fun _ => trivial)
    (fun _ hg => hg) (fun g hg => ?_) _ _ rfl
  subst hg
  refine wpE_mono (fun a g' hg' => ?_) (fun g' hg' => ?_) (h _ rfl (.refl _))
  · show ({ due := g'.due } : LockWatch) = _
    rw [hg'.1]
  · show ({ due := g'.due } : LockWatch) = _
    rw [hg']

/-- The record of an argument, rewritten. -/
theorem rewrite {i : Inode} (hi : i ∈ c.inodes cfg) (f : InodeValue → Nat → InodeValue) {g : InodeValue → Nat → Op α}
    (hg : ∀ iv ts, Only Eff.settles True (g iv ts)) : Locked cfg c d k (do
      let raw ← orNotFound (← getForUpdateInode i)
      let ts ← nowSecs
      Op.push (.putInode i (f raw ts))
      Op.commit
      g raw ts) fun _ => .unknown := by
  refine bind (record i (Or.inl hi)) fun o => bind (found o) fun raw => bind now fun ts => ?_
  exact bind (push _ (Or.inl List.mem_cons_self)) fun _ => commit (hg raw ts)

/-- The transaction of the creations. -/
theorem creating (hp : p ∈ c.parents) (n : Name) (size mode nlink uid gid : Nat) {extra : Inode → List BatchOp}
    (hextra : ∀ (k : LockWatch) i, .inode i ∈ k.locks → ∀ op ∈ extra i, k.Covers c op) (deltas : Nat → List DeltaOp) :
    Attempts cfg c none (createTxn cfg p n size mode nlink uid gid extra deltas) := by
  refine attempts (bind (entry p n rfl) fun o => guard fun _ => ?_)
  refine bind alloc fun i => bind now fun ts => ?_
  refine bind (push _ (Or.inr List.mem_cons_self)) fun _ => ?_
  refine bind (push _ (LockWatch.Covers.putEntry (by simp))) fun _ => ?_
  refine bind (pushes (fun op => op) _ (extra i) (hextra _ i ?_)) fun _ => ?_
  · simp [BatchOp.row]
  exact bind (parentDeltas hp _) fun _ => commit (Only.pure _)

/-- The child's record is locked. -/
theorem unlinkChild (i : Inode) (iv : InodeValue) (hi : .inode i ∈ k.locks) :
    Locked cfg c d k (unlinkChild i iv) fun _ => k.written := by
  have hput : ∀ v, Locked cfg c d k (Op.push (.putInode i v)) fun _ => k.written := fun v => pushed _ (Or.inl hi)
  have hdel : Locked cfg c d k (Op.push (.deleteInode i)) fun _ => k.written := pushed _ (Or.inl hi)
  have hloc : Locked cfg c d k.written (Op.push (.deleteDataLocation i)) fun _ => k.written := pushed (k := k.written) _ hi
  refine ite ?_ ?_
  · refine bind (effect (e := .handleCount i) rfl) fun count => ite ?_ ?_
    · exact bind now fun ts => bind (hput _) fun _ => pure _
    · exact bind hdel fun _ => bind hloc fun _ => pure _
  · exact bind now fun ts => bind (hput _) fun _ => pure _

theorem lockInodes : ∀ (k : LockWatch) (is : List Inode), (∀ i ∈ is, i ∈ c.inodes cfg ∨ i ∈ k.reads) →
    Locked cfg c d k (lockInodes is) fun _ => { k with locks := is.map Row.inode ++ k.locks }
  | k, [], _ => pure []
  | k, i :: is, his => by
      refine bind (record i (his i List.mem_cons_self)) fun raw => ?_
      refine bind (lockInodes _ is fun j hj => his j (List.mem_cons_of_mem i hj)) fun vals => ?_
      have hk : LockWatch.Knows { k with locks := (i :: is).map Row.inode ++ k.locks }
          { k with locks := is.map Row.inode ++ .inode i :: k.locks } :=
        ⟨fun r hr => by simpa [or_left_comm] using hr, fun _ h => h, fun _ h => h, fun _ h => h, fun _ h => h,
          fun _ h => h, id⟩
      cases raw <;> exact (pure _).mono (.refl _) fun _ => hk

/-- The destination's record is locked. -/
theorem renameTarget (srcIsDir : Bool) (ts : Nat) (values : List (Inode × InodeValue)) (dst : Option DirValue)
    (hdst : ∀ v ∈ dst, .inode v.inode ∈ k.locks) :
    Locked cfg c d k (renameTarget srcIsDir ts values dst) fun _ => k.written := by
  have hpure : ∀ a : Option Inode × Bool, Locked cfg c d k (Pure.pure a) fun _ => k.written := fun a =>
    (pure a).mono (.refl k) fun _ => k.written_knows
  cases dst with
  | none => exact hpure _
  | some v =>
      refine guard (f := fun _ => _) fun _ => guard fun _ => ite ?_ ?_
      · exact bind (emptyCheck _) fun b => guard fun _ => hpure _
      · refine bind (found _) fun iv => ite ?_ (hpure _)
        exact bind (pushed _ (Or.inl (hdst v rfl))) fun _ => pure _

theorem removeDst (np : Inode) (nn : Name) (del : Option Inode) (dst : Option DirValue)
    (hentry : .dirEntry np nn ∈ k.locks) (hdst : ∀ v ∈ dst, .inode v.inode ∈ k.locks) :
    Locked cfg c d k (removeDst np nn del dst) fun _ => k.written := by
  cases dst with
  | none => exact (pure _).mono (.refl k) fun _ => k.written_knows
  | some v =>
      have hv : .inode v.inode ∈ k.written.locks := hdst v rfl
      refine bind (pushed _ (.deleteEntry hentry)) fun _ => ite ?_ (pure _)
      exact bind (pushed (k := k.written) _ (Or.inl hv)) fun _ => pushed (k := k.written) (.deleteDataLocation _) hv

theorem parentsDeltas : ∀ (k : LockWatch) (dss : List (Inode × List DeltaOp)), (∀ ds ∈ dss, ds.1 ∈ c.parents) →
    Locked cfg c d k (dss.forM fun ds => batchParentDeltas cfg ds.1 ds.2) fun _ => k.written
  | k, [], _ => (pure _).mono (.refl k) fun _ => k.written_knows
  | k, ds :: dss, h =>
      bind (parentDeltas (h ds List.mem_cons_self) ds.2) fun _ =>
        parentsDeltas k.written dss fun ds' hds => h ds' (List.mem_cons_of_mem ds hds)

end Locked

/-! ## Calls -/

namespace Attempts

open Locked

theorem setattr (i : Inode) (req : SetAttrRequest) : Attempts cfg (.setattr i req) none (setattr i req) :=
  after (attempts (rewrite List.mem_cons_self _ fun _ _ => (Only.cachePut _ _).bind fun _ => Only.pure _))
    fun _ => Only.pure _

theorem reportWrite (i : Inode) (newSize mtime : Nat) :
    Attempts cfg (.reportWrite i newSize mtime) none (reportWrite i newSize mtime) := by
  refine attempts (.bind (record i (Or.inl List.mem_cons_self)) fun o => .bind (found o) fun raw => ?_)
  exact .bind (push _ (Or.inl List.mem_cons_self)) fun _ => commit (Only.cachePut _ _)

theorem link (cfg : Config) (p : Inode) (n : Name) (t : Inode) : Attempts cfg (.link p n t) none (link cfg p n t) := by
  have ht : t ∈ (Call.link p n t).inodes cfg := by simp [Call.inodes]
  have hp : p ∈ (Call.link p n t).inodes cfg := List.mem_cons_self
  refine before (Only.validateName n) fun _ => settled (attempts ?_) fun a => ?_
  · refine .bind (record t (Or.inl ht)) fun o => .bind (found o) fun tv => ?_
    refine guard fun _ => .bind (entry p n rfl) fun d => guard fun _ => ?_
    refine .bind (record p (Or.inl hp)) fun o => .bind (found o) fun pv => ?_
    refine guard fun _ => .bind now fun ts => .bind (push _ (Or.inl (by simp))) fun _ => ?_
    refine .bind (push _ (.putEntry (by simp))) fun _ => .bind now fun ts' => ?_
    refine .bind (parentDeltas List.mem_cons_self _) fun _ => ?_
    exact commit ((Only.cachePut _ _).bind fun _ => Only.pure _)
  · obtain ⟨tv, ts⟩ := a
    exact (Only.cacheApplyDeltas _ _).bind fun _ => (Only.markDirty _).bind fun _ => Only.pure _

theorem unlink (cfg : Config) (p : Inode) (n : Name) : Attempts cfg (.unlink p n) none (unlink cfg p n) := by
  have hp : p ∈ (Call.unlink p n).parents := List.mem_cons_self
  refine before (Only.validateName n) fun _ => settled (attempts ?_) fun a => ?_
  · refine named p n rfl fun v => guard fun _ => .bind (record v.inode (Or.inr List.mem_cons_self)) fun o => ?_
    refine .bind (found o) fun iv => .bind (pushed _ (.deleteEntry (by simp))) fun _ => ?_
    refine .bind (Locked.unlinkChild _ _ List.mem_cons_self) fun res => .bind now fun ts => ?_
    refine .bind (parentDeltas hp _) fun _ => commit ?_
    obtain ⟨iv', o'⟩ := res
    match o' with
    | some (j, false) =>
        exact (Only.clearDeltas j).bind fun _ => (Only.cacheInvalidate j).bind fun _ => Only.pure _
    | some (j, true) => exact (Only.cachePut _ _).bind fun _ => Only.pure _
    | none => exact (Only.cachePut _ _).bind fun _ => Only.pure _
  · obtain ⟨o, ts⟩ := a
    have htail : ∀ purged : List Inode, Only Eff.settles True
        (do cacheApplyDeltas p [.setMtime ts, .setCtime ts]; markDirty p; return purged) :=
      fun _ => (Only.cacheApplyDeltas _ _).bind fun _ => (Only.markDirty _).bind fun _ => Only.pure _
    match o with
    | some (j, true) =>
        have hpend : Only Eff.settles True (pendingInsert j) := Only.eff rfl
        exact hpend.bind fun _ => (Only.pure _).bind htail
    | some (j, false) => exact (Only.pure _).bind htail
    | none => exact (Only.pure _).bind htail

theorem rmdir (cfg : Config) (p : Inode) (n : Name) : Attempts cfg (.rmdir p n) none (rmdir cfg p n) := by
  have hp : p ∈ (Call.rmdir p n).parents := List.mem_cons_self
  refine before (Only.validateName n) fun _ => settled (attempts ?_) fun ts => Only.touch _ _
  refine named p n rfl fun v => guard fun _ => .bind (record v.inode (Or.inr List.mem_cons_self)) fun o => ?_
  refine .bind (found o) fun iv => .bind (emptyCheck _) fun b => guard fun _ => ?_
  refine .bind (pushed _ (.deleteEntry (by simp))) fun _ => .bind (pushed _ (Or.inl List.mem_cons_self)) fun _ => ?_
  refine .bind now fun ts => .bind (parentDeltas hp _) fun _ => commit ?_
  exact (Only.clearDeltas _).bind fun _ => (Only.cacheInvalidate _).bind fun _ => Only.pure _

theorem rename (cfg : Config) (p : Inode) (n : Name) (np : Inode) (nn : Name) :
    Attempts cfg (.rename p n np nn) none (rename cfg p n np nn) := by
  refine before (Only.validateName n) fun _ => before (Only.validateName nn) fun _ => ?_
  refine settled (attempts ?_) fun a => ?_
  · refine named p n rfl fun v => .bind (entry np nn rfl) fun dst => ?_
    refine .bind (Locked.lockInodes _ _ fun i hi => ?_) fun vals => ?_
    · rcases mem_renameInodeIds hi with rfl | ⟨w, rfl, rfl⟩ | rfl | rfl
      · exact Or.inr (by simp)
      · exact Or.inr (by simp)
      · exact Or.inl (by simp [Call.inodes])
      · exact Or.inl (by simp [Call.inodes])
    -- from here on the two entries, the source and the destination stay locked
    have hsrc := mem_renameInodeIds_src p np v.inode dst
    have hdst : ∀ w ∈ dst, w.inode ∈ renameInodeIds p np v.inode dst := fun w hw => by
      cases hw
      exact mem_renameInodeIds_dst p np v.inode w
    generalize renameInodeIds p np v.inode dst = ids at hsrc hdst
    refine .bind (found _) fun srcIv => .bind now fun ts => ?_
    refine .bind (Locked.renameTarget _ _ _ _ fun w hw => by simp [hdst w hw]) fun res => ?_
    obtain ⟨del, wasDir⟩ := res
    refine .bind (Locked.removeDst _ _ _ _ (by simp [LockWatch.written]) fun w hw => by
      simp [LockWatch.written, hdst w hw]) fun _ => ?_
    refine .bind (pushed _ (.deleteEntry (by simp [LockWatch.written]))) fun _ => ?_
    refine .bind (pushed _ (.putEntry (by simp [LockWatch.written]))) fun _ => ?_
    refine .bind (pushed _ (Or.inl (by simp [LockWatch.written, hsrc]))) fun _ => ?_
    refine .bind (parentsDeltas _ _ fun ds hds => renameDeltas_fst ds hds) fun _ => commit ?_
    exact (Only.forgetDst _).bind fun _ => (Only.cachePut _ _).bind fun _ => Only.pure _
  · obtain ⟨del, deltas⟩ := a
    exact (Only.forM _ _ fun d _ => Only.touch d.1 d.2).bind fun _ => Only.pure _

theorem load (i : Inode) : Only Eff.idles True (loadInode i) := Only.loadInode rfl rfl rfl fun _ => rfl

theorem openFile (cfg : Config) (i : Inode) (flags : Nat) :
    Attempts cfg (.openFile i flags) none (openFile cfg i flags) := by
  have hopen : Only Eff.idles True (do
      handleIncr i
      let serverId := (← getDataLocation i).getD cfg.defaultDataLocation.serverId
      return (⟨i, ⟨serverId⟩⟩ : OpenResponse)) :=
    Only.bind (x := handleIncr i) (Only.eff rfl) fun _ =>
      Only.bind (Only.of_perform (e := .getDataLocation i) (k := fun r => r) rfl rfl) fun _ => Only.pure _
  refine before (load i) fun iv => wpE_guard (fun _ => rfl) fun _ => ?_
  split
  · exact after (attempts (rewrite List.mem_cons_self _ fun _ _ => Only.cachePut _ _)) fun _ => hopen
  · exact of_idle hopen

/-- The deferred deletion is due in the second case only. -/
theorem release (i : Inode) : wpE (locking cfg (.release i)) LockWatch.Idle (release i) (fun _ g => g.Idle) {} := by
  unfold RucksFs.release
  rw [wpE_bind]
  refine follow_eff (e := .checkAndClearDeferredDelete i) trivial fun b _ => ?_
  cases b with
  | false => exact .empty none
  | true =>
      have hloc : ∀ k : LockWatch, .inode i ∈ k.locks → k.Covers (.release i) (.deleteDataLocation i) := fun _ h => h
      have hdelete : Attempts cfg (.release i) (some i) (executeWithRetry do
          Op.push (.deleteInode i)
          Op.push (.deleteDataLocation i)
          Op.commit) := by
        refine attempts (.bind (push _ (Or.inr ⟨rfl, rfl⟩)) fun _ => ?_)
        refine .bind (push _ (hloc _ List.mem_cons_self)) fun _ g hd hg => ?_
        exact follow_commit trivial (fun _ _ => ⟨hd, LockWatch.unknown_knows _⟩) fun _ => hd
      have hall := hdelete.settled (f := fun _ => do
        clearDeltas i
        cacheInvalidate i
        return [i]) fun _ => (Only.clearDeltas i).bind fun _ => (Only.cacheInvalidate i).bind fun _ => Only.pure _
      exact hall.idle

theorem creation {p : Inode} (hp : p ∈ c.parents) (n : Name)
    (size mode nlink uid gid : Nat) {extra : Inode → List BatchOp}
    (hextra : ∀ (k : LockWatch) i, .inode i ∈ k.locks → ∀ op ∈ extra i, k.Covers c op)
    (deltas : Nat → List DeltaOp) (after : InodeValue → List DeltaOp) : Attempts cfg c none (do
      validateName n
      let iv ← createTxn cfg p n size mode nlink uid gid extra deltas
      afterCreate p iv (after iv)) :=
  before (Only.validateName n) fun _ => settled (creating hp n size mode nlink uid gid hextra deltas) fun iv =>
    Only.afterCreate p iv (after iv)

theorem create {c : Call} {p : Inode} (hp : p ∈ c.parents) (n : Name)
    (mode uid gid : Nat) : Attempts cfg c none (create cfg p n mode uid gid) := by
  refine creation hp n _ _ _ _ _ (fun k i hk op hop => ?_) _ fun iv => [.setMtime iv.mtime, .setCtime iv.ctime]
  rw [List.mem_singleton.1 hop]
  exact hk

/-- Scanned numbers are left over only from a scan that found none. -/
theorem forceCompactInode (i : Inode) :
    wpE (locking cfg (.forceCompactInode i)) LockWatch.Idle (forceCompactInode i) (fun _ g => g.Idle) {} := by
  unfold RucksFs.forceCompactInode
  rw [wpE_bind]
  refine follow_scanDeltasWithKeys ⟨rfl, rfl⟩ (fun kvs _ => ?_) fun _ => .empty none
  split
  · rename_i hempty
    refine ⟨rfl, rfl, fun j qs h => ?_⟩
    cases h
    rw [List.isEmpty_iff.1 hempty]
    rfl
  · refine follow_withBatch trivial (fun _ => trivial) ?_
    refine wpE_mono (fun _ g hg => .empty _) (fun g hg => .empty _)
      ((?_ : Locked cfg (.forceCompactInode i) none { scanned := some (i, kvs.map Prod.fst) } _ fun _ => .unknown)
        _ rfl (.refl _))
    · refine .bind (record i (Or.inl List.mem_cons_self)) fun o => ?_
      cases o with
      | none => exact (Locked.pure _).mono (.refl _) fun _ => LockWatch.unknown_knows _
      | some base =>
          refine .bind (pushed _ (Or.inl List.mem_cons_self)) fun _ => ?_
          refine .bind (pushes (fun p => .deleteDelta i p.1) _ kvs fun p hp => ?_) fun _ g hd hg => ?_
          · exact ⟨List.mem_cons_self, _, rfl, List.mem_map_of_mem hp⟩
          · rw [wpE_bind]
            refine follow_eff (e := .commit) trivial fun r _ => ?_
            have hover : LockWatch.due { due := g.due } = none ∧ LockWatch.unknown.Knows { due := g.due } :=
              ⟨hd, LockWatch.unknown_knows _⟩
            cases r with
            | ok _ =>
                refine (wpE_bind ..).2 (follow_skip trivial (fun _ => rfl) fun _ => ?_)
                exact hover
            | error x => cases x <;> first | exact hover | exact hd

end Attempts

/-- The answer of an operation. -/
theorem locking_reply {x : Op α} {mk : FsResult α → Reply}
    (h : wpE (locking cfg c) LockWatch.Idle x (fun _ g => g.Idle) {}) :
    wp (locking cfg c) (do return mk (← x.run)) (fun _ g => g.Idle) {} := by
  rw [wp_bind]
  refine wp_mono (fun r g hg => ?_) h
  cases r <;> exact hg

end

/-- **A call writes covered rows only.** -/
theorem Call.locks_first (cfg : Config) (c : Call) : wp (locking cfg c) (c.body cfg) (fun _ g => g.Idle) {} := by
  cases c with
  | lookup p n =>
      refine locking_reply (Attempts.reading ?_)
      refine Only.bind (Only.validateName n) fun _ =>
        Only.bind (Only.of_perform (e := .resolvePath p n) (k := fun r => r) rfl rfl) fun o => ?_
      exact Only.bind (Only.orNotFound o) fun i => Only.bind (Attempts.load i) fun _ => Only.pure _
  | getattr i =>
      exact locking_reply (Attempts.reading (Only.bind (Attempts.load i) fun _ => Only.pure _))
  | setattr i req => exact locking_reply (Attempts.setattr i req).idle
  | readdir i =>
      refine locking_reply (Attempts.reading ?_)
      refine Only.bind (Attempts.load i) fun iv => Only.guard fun _ => ?_
      exact Only.of_perform (e := .listDir i) (k := fun r => r) rfl rfl
  | create p n mode uid gid =>
      exact locking_reply (Attempts.create List.mem_cons_self n mode uid gid).idle
  | createAndOpen p n mode uid gid flags =>
      refine locking_reply (Attempts.idle (d := none) ?_)
      refine (Attempts.create List.mem_cons_self n mode uid gid).after fun attr => ?_
      exact Only.bind (x := handleIncr attr.inode) (Only.eff rfl) fun _ => Only.pure _
  | mkdir p n mode uid gid =>
      exact locking_reply (Attempts.creation List.mem_cons_self n _ _ _ _ _
        (by simp) _ fun iv => [.incrementNlink 1, .setMtime iv.mtime, .setCtime iv.ctime]).idle
  | symlink p n target uid gid =>
      refine locking_reply (Attempts.idle (Attempts.creation List.mem_cons_self n _ _ _ _ _
        (fun k i hk op hop => ?_) _ fun iv => [.setMtime iv.mtime, .setCtime iv.ctime]))
      rw [List.mem_singleton.1 hop]
      exact hk
  | link p n t => exact locking_reply (Attempts.link cfg p n t).idle
  | unlink p n => exact locking_reply (Attempts.unlink cfg p n).idle
  | rmdir p n => exact locking_reply (Attempts.rmdir cfg p n).idle
  | rename p n np nn => exact locking_reply (Attempts.rename cfg p n np nn).idle
  | openFile i flags => exact locking_reply (Attempts.openFile cfg i flags).idle
  | reportWrite i newSize mtime => exact locking_reply (Attempts.reportWrite i newSize mtime).idle
  | readlink i =>
      refine locking_reply (Attempts.reading ?_)
      refine Only.bind (Attempts.load i) fun iv => Only.guard fun _ => ?_
      refine Only.bind (Only.of_perform (e := .getSymlink i) (k := fun r => r) rfl rfl) fun target => ?_
      cases target with
      | none => exact Only.throw _
      | some t => exact Only.pure _
  | release i => exact locking_reply (Attempts.release i)
  | forceCompactInode i => exact locking_reply (Attempts.forceCompactInode i)

end RucksFs
