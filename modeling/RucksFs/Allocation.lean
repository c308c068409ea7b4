import RucksFs.Lib.Trace
import RucksFs.Server.Effect

/-!
# Inode numbers across restarts

A run is made of calls and restarts.  A restart builds a new server on the same database: the
allocator's counter comes from `next_inode`, which is written only when the counter is a
multiple of 64.

* `restart_reuses_inode` — a run in which a restart brings a number back that is in use: two
  creations return the same inode and the second overwrites the first one's record.
* `creation_takes_unused_inode` — as long as every restart finds the counter as the server left
  it, every creation gets a number that has no record and that no earlier creation got.
-/

set_option autoImplicit false

namespace RucksFs

open Server

/-- One step of a run with restarts. -/
inductive Event where
  | call (c : Call)
  | restart

/-- A restart loses everything but the database. -/
def Event.step (cfg : Config) : Event → Server → Option Reply × Server
  | .call c, s => (some (s.exec cfg c).1, (s.exec cfg c).2)
  | .restart, s => (none, Server.new cfg s.db s.ticks)

/-- The number of the object a successful creation made. -/
def createdInode : Call → Reply → Option Inode
  | .create _ _ _ _ _, .attr (.ok a) => some a.inode
  | .mkdir _ _ _ _ _, .attr (.ok a) => some a.inode
  | .symlink _ _ _ _ _, .attr (.ok a) => some a.inode
  | .createAndOpen _ _ _ _ _ _, .created (.ok r) => some r.attr.inode
  | _, _ => none

/-- The numbers handed out to creations in a history. -/
def createdInodes : List (Event × Option Reply) → List Inode
  | [] => []
  | (.call c, some r) :: es => (createdInode c r).toList ++ createdInodes es
  | _ :: es => createdInodes es

theorem createdInodes_append (es es' : List (Event × Option Reply)) :
    createdInodes (es ++ es') = createdInodes es ++ createdInodes es' := by
  induction es with
  | nil => rfl
  | cons e es ih =>
      obtain ⟨ev, r⟩ := e
      cases ev <;> cases r <;> simp [createdInodes, ih]

/-- The stored counter is the one in memory. -/
def Server.CounterStored (s : Server) : Prop := loadAllocator s.db = s.next

instance (s : Server) : Decidable s.CounterStored := by unfold Server.CounterStored; infer_instance

/-- Restarts happen only while the stored counter is the one in memory. -/
def restartsSynced (_ : List (Event × Option Reply)) (s : Server) : Event → Prop
  | .restart => s.CounterStored
  | .call _ => True

/-! ## One step -/

theorem createdInode_quiet {c : Call} {r : Reply} (h : r.isError = true ∨ c.reads = true) :
    createdInode c r = none := by
  unfold createdInode
  split <;> first | rfl | (rcases h with h | h <;> cases h)

/-- A creation that succeeds takes the allocator's next number. -/
theorem createdInode_exec {cfg : Config} {s : Server} {c : Call} {i : Inode}
    (h : createdInode c (s.exec cfg c).1 = some i) : i = s.next ∧ (s.exec cfg c).2.next = s.next + 1 := by
  obtain ⟨s₁, he, hb⟩ := exec_effect cfg s c
  rw [hb.next]
  generalize (s.exec cfg c).1 = r at h he
  cases he with
  | quiet hq => rw [createdInode_quiet hq] at h; cases h
  | made hc hfree hi hx =>
      refine ⟨?_, rfl⟩
      rw [← hi]
      cases hc <;> (cases h; rfl)
  | madeOpen hl ht he hx hr hh =>
      refine ⟨?_, rfl⟩
      rw [← hr]
      cases h
      rfl
  | rewrite hc => cases hc <;> cases h
  | _ => cases h

theorem next_le_exec {cfg : Config} {s : Server} (hw : s.Wf) (c : Call) :
    s.next ≤ (s.exec cfg c).2.next := by
  obtain ⟨s₁, he, hb⟩ := exec_effect cfg s c
  rw [hb.next]
  exact he.next_le hw

/-- A restart keeps the database: the root directory exists. -/
theorem new_eq (cfg : Config) {s : Server} (hw : s.Wf) (hc : s.CounterStored) :
    (Server.new cfg s.db s.ticks).Wf ∧ (Server.new cfg s.db s.ticks).next = s.next := by
  obtain ⟨riv, hriv, -⟩ := hw.db.root
  have hnew : Server.new cfg s.db s.ticks =
      { db := s.db, seqs := recoverSeqs s.db, next := loadAllocator s.db,
        cache := InodeFoldedCache.new cfg.cacheCapacity, dirty := [], notifyFlag := false,
        openHandles := fun _ => none, pendingDeletes := fun _ => false, ticks := s.ticks } := by
    unfold Server.new Server.initRoot
    dsimp only
    rw [hriv]
  rw [hnew]
  exact ⟨⟨by rw [show loadAllocator s.db = s.next from hc]; exact hw.db, rfl⟩, hc⟩

/-! ## Runs -/

/-- The counter is above everything that was handed out. -/
structure Allocated (es : List (Event × Option Reply)) (s : Server) : Prop where
  wf : s.Wf
  lt : ∀ i ∈ createdInodes es, i < s.next

theorem Allocated.step {cfg : Config} {es : List (Event × Option Reply)} {s : Server} {e : Event}
    (h : Allocated es s) (hok : restartsSynced es s e) :
    Allocated (es ++ [(e, (e.step cfg s).1)]) (e.step cfg s).2 := by
  cases e with
  | restart =>
      obtain ⟨hw, hnext⟩ := new_eq cfg h.wf hok
      refine ⟨hw, fun i hi => ?_⟩
      rw [createdInodes_append] at hi
      have hi : i ∈ createdInodes es := by simpa [createdInodes, Event.step] using hi
      exact hnext ▸ h.lt i hi
  | call c =>
      refine ⟨h.wf.exec cfg c, fun i hi => ?_⟩
      rw [createdInodes_append, List.mem_append] at hi
      rcases hi with hi | hi
      · exact Nat.lt_of_lt_of_le (h.lt i hi) (next_le_exec h.wf c)
      · have hi : createdInode c (s.exec cfg c).1 = some i := by
          simpa [createdInodes, Event.step] using hi
        obtain ⟨rfl, hnext⟩ := createdInode_exec hi
        show s.next < (s.exec cfg c).2.next
        rw [hnext]
        exact Nat.lt_succ_self _

/-- **Unused numbers.**  In a run whose restarts all find the stored counter equal to the one in
memory, what `alloc` returns, and so the number a creation gets, has no record yet and was not
given to an earlier creation. -/
theorem creation_takes_unused_inode {cfg : Config} {es : List (Event × Option Reply)} {s : Server}
    (h : Trace (Event.step cfg) restartsSynced (Server.fresh cfg) es s) :
    (∀ tx i, (Op.exec cfg Op.alloc (tx, s)).1 = .ok i → s.db.inode i = none ∧ i ∉ createdInodes es) ∧
    ∀ c i, createdInode c (s.exec cfg c).1 = some i → s.db.inode i = none ∧ i ∉ createdInodes es := by
  have hinv : Allocated es s :=
    h.invariant Allocated ⟨Server.wf_fresh cfg, fun i hi => by cases hi⟩ fun h hok => h.step hok
  have hnext : s.db.inode s.next = none ∧ s.next ∉ createdInodes es :=
    ⟨(Effect.fresh_next hinv.wf.db).1, fun hm => Nat.lt_irrefl _ (hinv.lt _ hm)⟩
  refine ⟨fun tx i hi => ?_, fun c i hi => ?_⟩
  · rw [Op.exec_alloc] at hi
    cases hi
    exact hnext
  · obtain ⟨rfl, -⟩ := createdInode_exec hi
    exact hnext

/-- `k` files of the root, made one after the other. -/
def filesCreated : Nat → List (Event × Option Reply) × Server
  | 0 => ([], Server.fresh {})
  | k + 1 =>
      let e := Event.call (.create 1 [Fin.ofNat 256 k] 0o644 0 0)
      let (es, s) := filesCreated k
      (es ++ [(e, (e.step {} s).1)], (e.step {} s).2)

theorem trace_filesCreated : ∀ k, Trace (Event.step {}) restartsSynced (Server.fresh {}) (filesCreated k).1 (filesCreated k).2
  | 0 => .nil
  | k + 1 => .snoc _ (trace_filesCreated k) trivial

/-- A restart after 62 creations finds the counter stored, and the next creation gets the number after theirs. -/
theorem creation_takes_unused_inode_restarted :
    let es := (filesCreated 62).1 ++ [(.restart, none)]
    let s := (Event.step {} .restart (filesCreated 62).2).2
    (filesCreated 62).2.db.nextInode = some 64 ∧ createdInodes (filesCreated 62).1 = List.range' 2 62 ∧
      s.db.inode 64 = none ∧ 64 ∉ createdInodes es := by
  have hrun : ((filesCreated 62).2.db.nextInode = some 64 ∧ (filesCreated 62).2.CounterStored) ∧
      createdInodes (filesCreated 62).1 = List.range' 2 62 ∧
      createdInode (.create 1 [97] 0o600 0 0) ((Event.step {} .restart (filesCreated 62).2).2.exec {}
        (.create 1 [97] 0o600 0 0)).1 = some 64 := by decide +kernel
  obtain ⟨⟨hstored, hsynced⟩, hcreated, hnext⟩ := hrun
  have htrace : Trace (Event.step {}) restartsSynced (Server.fresh {}) _ _ :=
    .snoc Event.restart (trace_filesCreated 62) hsynced
  exact ⟨hstored, hcreated, (creation_takes_unused_inode htrace).2 _ 64 hnext⟩

/-- Creating `a` (inode 2), restarting and creating `b`: the counter was never stored, so the
restarted allocator hands out 2 again and the record of `a` is overwritten. -/
theorem restart_reuses_inode :
    let s₁ := (Event.step {} (.call (.create 1 [97] 0o644 0 0)) (Server.fresh {})).2
    let s₂ := (Event.step {} .restart s₁).2
    let s₃ := (Event.step {} (.call (.create 1 [98] 0o600 7 7)) s₂).2
    createdInode (.create 1 [97] 0o644 0 0) ((Server.fresh {}).exec {} (.create 1 [97] 0o644 0 0)).1 =
        some 2 ∧
      createdInode (.create 1 [98] 0o600 7 7) (s₂.exec {} (.create 1 [98] 0o600 7 7)).1 = some 2 ∧
      (s₂.db.inode 2).map InodeValue.uid = some 0 ∧
      (s₃.db.inode 2).map InodeValue.uid = some 7 ∧
      s₃.db.entry 1 [97] = some ⟨2, S_IFREG ||| 0o644⟩ := by
  decide

end RucksFs
