import RucksFs.Lib.Trace
import RucksFs.Server.Effect

/-!
# Open files

A file that is open keeps its record and its data: `unlink` defers the deletion to the last
`release`.

* `rename_purges_open_file` — `rename` replaces an open file without looking at the handle table
  and reports it as purged.
* `open_files_survive` — in every run in which a rename never deletes an open file or its own
  source, and no handle count wraps, a call removes only what is not open, and lists an inode as
  purged once, in the call that removes its record.
-/

set_option autoImplicit false

namespace RucksFs

open Server

/-- The calls on files. -/
def Call.onFiles : Call → Bool
  | .openFile _ _ | .createAndOpen _ _ _ _ _ _ | .release _ | .create _ _ _ _ _ | .link _ _ _
  | .unlink _ _ | .rename _ _ _ _ | .setattr _ _ | .reportWrite _ _ _ => true
  | _ => false

/-- The opens of `i` not yet balanced by a release, one call later. -/
def opensStep (i : Inode) (k : Nat) : Call × Reply → Nat
  | (.openFile j _, .opened (.ok _)) => if i = j then k + 1 else k
  | (.createAndOpen _ _ _ _ _ _, .created (.ok r)) => if i = r.attr.inode then k + 1 else k
  | (.release j, .purged (.ok _)) => if i = j then k - 1 else k
  | _ => k

/-- The opens of `i` in a history that no release has balanced. -/
def unbalancedOpens (es : List (Call × Reply)) (i : Inode) : Nat := es.foldl (opensStep i) 0

/-- The inodes a response lists as purged. -/
def purgedInodes : Call × Reply → List Inode
  | (.unlink _ _, .purged (.ok l)) => l
  | (.rename _ _ _ _, .purged (.ok l)) => l
  | (.release _, .purged (.ok l)) => l
  | _ => []

/-- The condition on the calls that can break it: a rename that deletes its destination finds it
closed and different from its source, and the 32-bit handle count does not wrap. -/
def Call.KeepsOpen (s : Server) : Call → Prop
  | .rename p n np nn => ∀ v d iv, s.db.entry p n = some v → s.db.entry np nn = some d →
      isDir d.mode = false → s.db.inode d.inode = some iv → iv.nlink ≤ 1 →
      s.handles d.inode = 0 ∧ d.inode ≠ v.inode
  | .openFile i _ => s.handles i + 1 < U32_SIZE
  | .createAndOpen _ _ _ _ _ _ => s.handles s.next + 1 < U32_SIZE
  | _ => True

/-! ## One call -/

namespace Effect

variable {s s' : Server} {c : Call} {r : Reply} {i : Inode}

theorem opensStep_quiet (h : r.isError = true ∨ c.reads = true) (k : Nat) :
    opensStep i k (c, r) = k := by
  unfold opensStep
  split <;> first | rfl | (rename_i e; cases e; rcases h with h | h <;> cases h)

theorem purgedInodes_quiet (h : r.isError = true ∨ c.reads = true) : purgedInodes (c, r) = [] := by
  unfold purgedInodes
  split <;> first | rfl | (rename_i e; cases e; rcases h with h | h <;> cases h)

/-- The handle table counts the unbalanced opens. -/
theorem handles (h : Effect s c r s') (hk : c.KeepsOpen s) :
    s'.handles i = opensStep i (s.handles i) (c, r) := by
  have hopen : ∀ {j : Inode}, s.handles j + 1 < U32_SIZE →
      (if i = j then (s.handles j + 1) % U32_SIZE else s.handles i) =
        if i = j then s.handles i + 1 else s.handles i := by
    intro j hlt
    rw [Nat.mod_eq_of_lt hlt]
    split
    · rename_i e
      rw [e]
    · rfl
  have hrelease : ∀ j : Inode, (s.checkAndClearDeferredDelete j).2.handles i =
      if i = j then s.handles i - 1 else s.handles i := by
    intro j
    rw [s.checkAndClear_handles]
    split
    · rename_i e
      rw [e]
    · rfl
  cases h with
  | quiet hq => exact (opensStep_quiet hq _).symm
  | made hc => cases hc <;> rfl
  | @madeOpen p n mode uid gid flags iv extra rep hl ht he hx hr hh =>
      rw [Server.handles_handleIncr]
      refine (hopen hk).trans ?_
      rw [← hr]
      rfl
  | rewrite hc => cases hc <;> rfl
  | @opened j flags rep =>
      rw [Server.handles_handleIncr]
      exact hopen hk
  | @openedTrunc j flags rep iv iv' =>
      rw [Server.handles_handleIncr]
      exact hopen hk
  | @released j hp => exact hrelease j
  | @releasedDrop j hp => exact hrelease j
  | _ => rfl

/-- The record and the data location of `j` are there after the call if they were before. -/
def Keeps (s s' : Server) (j : Inode) : Prop :=
  ((s.db.inode j).isSome = true → (s'.db.inode j).isSome = true) ∧
  ((s.db.dataLocations.get j).isSome = true → (s'.db.dataLocations.get j).isSome = true)

/-- A call on files removes nothing, or the one inode that it lists as purged and that is not
open. -/
theorem removal (h : Effect s c r s') (hf : c.onFiles = true) (hk : c.KeepsOpen s) :
    (purgedInodes (c, r) = [] ∧ ∀ j, Keeps s s' j) ∨
    ∃ i, purgedInodes (c, r) = [i] ∧ (s.pendingDeletes i = true ∨ (s.db.inode i).isSome = true) ∧
      s'.db.inode i = none ∧ s'.handles i = 0 ∧ ∀ j, j ≠ i → Keeps s s' j := by
  have hkeep : ∀ {ops : List BatchOp} {s₁ : Server}, s₁.db = s.db.applyBatch ops →
      (∀ j, ∀ op ∈ ops, ¬op.Removes j) → ∀ j, Keeps s s₁ j := by
    intro ops s₁ hdb hops j
    unfold Keeps
    rw [hdb]
    exact s.db.isSome_applyBatch (hops j)
  cases h with
  | quiet hq => exact Or.inl ⟨purgedInodes_quiet hq, fun _ => ⟨id, id⟩⟩
  | made hc he hi hx =>
      exact Or.inl ⟨by cases hc <;> rfl, hkeep rfl fun _ => BatchOp.not_removes_creation hx⟩
  | madeOpen hl ht he hx hr hh =>
      exact Or.inl ⟨rfl, hkeep rfl fun _ => BatchOp.not_removes_creation hx⟩
  | link ts hi hd he hp => exact Or.inl ⟨rfl, hkeep rfl (by simp [BatchOp.Removes])⟩
  | unlinkKeep ts he hd hi hl => exact Or.inl ⟨rfl, hkeep rfl (by simp [BatchOp.Removes])⟩
  | unlinkDefer ts he hd hi hl hh => exact Or.inl ⟨rfl, hkeep rfl (by simp [BatchOp.Removes])⟩
  | @unlinkDrop p n v iv he hd hi hl hh =>
      refine Or.inr ⟨v.inode, rfl, Or.inr (by rw [hi]; rfl), ?_, hh, fun j hj => ?_⟩
      · show (s.db.applyBatch _).inode v.inode = none
        rw [Change.inode_unlinkDrop, if_pos rfl]
      · refine s.db.isSome_applyBatch ?_
        simpa [BatchOp.Removes] using Ne.symm hj
  | rmdir => cases hf
  | @rename p n np nn v srcIv vic ts he hi hv hemp =>
      cases hdel : vic.delete with
      | none => exact Or.inl ⟨rfl, hkeep rfl fun j => not_removes_renameOps hv (by rw [hdel]; simp)⟩
      | some i =>
          obtain ⟨d, div, hdst, rfl, hdd, -, hdi, hdl⟩ := hv.delete_eq hdel
          obtain ⟨hclosed, hne⟩ := hk v d div he hdst hdd hdi hdl
          refine Or.inr ⟨d.inode, rfl, Or.inr (by rw [hdi]; rfl), ?_, hclosed, fun j hj => ?_⟩
          · show (s.db.applyBatch _).inode d.inode = none
            rw [inode_renameOps hv]
            unfold Victim.records
            rw [if_neg hne, if_pos hdel]
          · exact s.db.isSome_applyBatch (not_removes_renameOps hv (by rw [hdel]; simpa using Ne.symm hj))
  | rewrite hc hi ht hl hr =>
      exact Or.inl ⟨by cases hc <;> rfl, hkeep rfl (by simp [BatchOp.Removes])⟩
  | opened => exact Or.inl ⟨rfl, fun _ => ⟨id, id⟩⟩
  | openedTrunc hi ht hl => exact Or.inl ⟨rfl, hkeep rfl (by simp [BatchOp.Removes])⟩
  | @released i hp =>
      refine Or.inl ⟨rfl, fun j => ?_⟩
      unfold Keeps
      rw [s.checkAndClear_db]
      exact ⟨id, id⟩
  | @releasedDrop i hp =>
      obtain ⟨hpend, hle, -⟩ := s.checkAndClear_true hp
      have hdb : ((s.checkAndClearDeferredDelete i).2.write [.deleteInode i, .deleteDataLocation i]).db =
          s.db.applyBatch [.deleteInode i, .deleteDataLocation i] := by
        show (s.checkAndClearDeferredDelete i).2.db.applyBatch _ = _
        rw [s.checkAndClear_db]
      refine Or.inr ⟨i, rfl, Or.inl hpend, ?_, ?_, fun j hj => ?_⟩
      · rw [hdb, Change.inode_drop, if_pos rfl]
      · show (s.checkAndClearDeferredDelete i).2.handles i = 0
        rw [s.checkAndClear_handles, if_pos rfl]
        omega
      · unfold Keeps
        rw [hdb]
        refine s.db.isSome_applyBatch ?_
        simpa [BatchOp.Removes] using Ne.symm hj

/-- A pending inode is open. -/
theorem pending_open (h : Effect s c r s') (hk : c.KeepsOpen s)
    (hpos : ∀ i, s.pendingDeletes i = true → 0 < s.handles i) (hp : s'.pendingDeletes i = true) :
    0 < s'.handles i ∧ (s.pendingDeletes i = true ∨ (s.db.inode i).isSome = true) := by
  have hhandles := h.handles (i := i) hk
  have hgrow : ∀ j, 0 < s.handles i → 0 < if i = j then s.handles i + 1 else s.handles i := by
    intro j hi
    split
    · exact Nat.succ_pos _
    · exact hi
  cases h with
  | @unlinkDefer p n v iv ts he hd hi hl hh =>
      by_cases e : i = v.inode
      · subst e
        exact ⟨Nat.pos_of_ne_zero hh, Or.inr (by rw [hi]; rfl)⟩
      · have hold : s.pendingDeletes i = true := by
          have hp : Function.update s.pendingDeletes v.inode true i = true := hp
          simpa [e] using hp
        exact ⟨hpos i hold, Or.inl hold⟩
  | made => exact ⟨hpos i hp, Or.inl hp⟩
  | rewrite => exact ⟨hpos i hp, Or.inl hp⟩
  | madeOpen => exact ⟨by rw [hhandles]; exact hgrow _ (hpos i hp), Or.inl hp⟩
  | opened => exact ⟨by rw [hhandles]; exact hgrow _ (hpos i hp), Or.inl hp⟩
  | openedTrunc => exact ⟨by rw [hhandles]; exact hgrow _ (hpos i hp), Or.inl hp⟩
  | @released j hq =>
      obtain ⟨hsame, hone⟩ := s.checkAndClear_false hq
      rw [hsame] at hp
      refine ⟨?_, Or.inl hp⟩
      rw [s.checkAndClear_handles]
      have hi := hpos i hp
      split
      · rename_i e
        subst e
        have hne := hone hp
        omega
      · exact hi
  | @releasedDrop j hq =>
      obtain ⟨-, -, hcleared⟩ := s.checkAndClear_true hq
      have hp : (s.checkAndClearDeferredDelete j).2.pendingDeletes i = true := hp
      have hne : i ≠ j := by
        rintro rfl
        rw [hcleared] at hp
        cases hp
      rw [s.checkAndClear_pending_ne hne] at hp
      refine ⟨?_, Or.inl hp⟩
      show 0 < (s.checkAndClearDeferredDelete j).2.handles i
      rw [s.checkAndClear_handles, if_neg hne]
      exact hpos i hp
  | _ => exact ⟨hpos i hp, Or.inl hp⟩

end Effect

/-! ## Runs -/

/-- What the history says about the state. -/
structure Tracked (es : List (Call × Reply)) (s : Server) : Prop where
  wf : s.Wf
  handles : ∀ i, s.handles i = unbalancedOpens es i
  pending : ∀ i, s.pendingDeletes i = true → 0 < s.handles i ∧ (s.db.inode i).isSome = true
  purged : ∀ i ∈ es.flatMap purgedInodes, s.db.inode i = none ∧ i < s.next
  once : (es.flatMap purgedInodes).Nodup

/-- What a call with reply `r` and state `s'` afterwards may do to open files, and which inodes it
may list as purged. -/
structure OpenSafe (es : List (Call × Reply)) (s : Server) (c : Call) (r : Reply) (s' : Server) :
    Prop where
  keeps : ∀ i, 0 < unbalancedOpens (es ++ [(c, r)]) i → i ∉ purgedInodes (c, r) ∧ Effect.Keeps s s' i
  once : ((es ++ [(c, r)]).flatMap purgedInodes).Nodup
  removes : ∀ i ∈ purgedInodes (c, r), (s.db.inode i).isSome = true ∧ s'.db.inode i = none

namespace Tracked

variable {es : List (Call × Reply)} {s : Server} {c : Call}

theorem handles_exec (h : Tracked es s) (cfg : Config) (hk : c.KeepsOpen s) (i : Inode) :
    (s.exec cfg c).2.handles i = unbalancedOpens (es ++ [(c, (s.exec cfg c).1)]) i := by
  obtain ⟨s₁, he, hb⟩ := exec_effect cfg s c
  rw [hb.handles, he.handles hk, h.handles]
  unfold unbalancedOpens
  rw [List.foldl_append]
  rfl

theorem safe (h : Tracked es s) (cfg : Config) (hf : c.onFiles = true) (hk : c.KeepsOpen s) :
    OpenSafe es s c (s.exec cfg c).1 (s.exec cfg c).2 := by
  have hopens := h.handles_exec cfg hk
  obtain ⟨s₁, he, hb⟩ := exec_effect cfg s c
  have hkeeps : ∀ {j}, Effect.Keeps s s₁ j → Effect.Keeps s (s.exec cfg c).2 j := by
    intro j hj
    unfold Effect.Keeps
    rw [hb.isSome_inode, hb.dataLocations]
    exact hj
  rcases he.removal hf hk with ⟨hnil, hall⟩ | ⟨i, hone, hwas, hgone, hclosed, hall⟩
  · refine ⟨fun j _ => ⟨by rw [hnil]; exact List.not_mem_nil, hkeeps (hall j)⟩, ?_, ?_⟩
    · rw [List.flatMap_append, List.flatMap_singleton, hnil, List.append_nil]
      exact h.once
    · rw [hnil]
      exact fun _ hm => absurd hm List.not_mem_nil
  · have hsome : (s.db.inode i).isSome = true := hwas.elim (fun hp => (h.pending i hp).2) id
    refine ⟨fun j hj => ?_, ?_, ?_⟩
    · have hne : j ≠ i := by
        rintro rfl
        rw [← hopens, hb.handles, hclosed] at hj
        exact Nat.lt_irrefl _ hj
      exact ⟨by rw [hone]; simpa using hne, hkeeps (hall j hne)⟩
    · rw [List.flatMap_append, List.flatMap_singleton, hone]
      refine h.once.append (List.nodup_singleton i) fun j hj hj' => ?_
      rw [List.mem_singleton.1 hj'] at hj
      rw [(h.purged i hj).1] at hsome
      cases hsome
    · rw [hone]
      intro j hj
      rw [List.mem_singleton.1 hj]
      exact ⟨hsome, hb.inode_eq_none.2 hgone⟩

theorem step (h : Tracked es s) (cfg : Config) (hf : c.onFiles = true) (hk : c.KeepsOpen s) :
    Tracked (es ++ [(c, (s.exec cfg c).1)]) (s.exec cfg c).2 := by
  have hsafe := h.safe cfg hf hk
  have hopens := h.handles_exec cfg hk
  obtain ⟨s₁, he, hb⟩ := exec_effect cfg s c
  refine ⟨h.wf.exec cfg c, hopens, fun i hp => ?_, fun i hi => ?_, hsafe.once⟩
  · rw [hb.pendingDeletes] at hp
    obtain ⟨hpos, hwas⟩ := he.pending_open hk (fun j hj => (h.pending j hj).1) hp
    have hsome : (s.db.inode i).isSome = true := hwas.elim (fun hp => (h.pending i hp).2) id
    rw [← hb.handles] at hpos
    exact ⟨hpos, (hsafe.keeps i (hopens i ▸ hpos)).2.1 hsome⟩
  · rw [List.flatMap_append, List.mem_append, List.flatMap_singleton] at hi
    rw [hb.next]
    rcases hi with hi | hi
    · obtain ⟨hnone, hlt⟩ := h.purged i hi
      refine ⟨hb.inode_eq_none.2 ?_, Nat.lt_of_lt_of_le hlt (he.next_le h.wf)⟩
      cases hi₁ : s₁.db.inode i with
      | none => rfl
      | some iv =>
          rcases he.origin h.wf hi₁ with ⟨old, hold, -⟩ | e
          · rw [hnone] at hold
            cases hold
          · exact absurd e (Nat.ne_of_lt hlt)
    · obtain ⟨hsome, hnone⟩ := hsafe.removes i hi
      obtain ⟨iv, hiv⟩ := Option.isSome_iff_exists.1 hsome
      exact ⟨hnone, Nat.lt_of_lt_of_le (h.wf.db.inode_lt hiv) (he.next_le h.wf)⟩

theorem fresh (cfg : Config) : Tracked [] (Server.fresh cfg) where
  wf := Server.wf_fresh cfg
  handles _ := rfl
  pending _ hp := by cases hp
  purged _ hi := by cases hi
  once := List.nodup_nil

end Tracked

/-- **Open files survive.**  After every run of file calls that meet `KeepsOpen`, each further such
call removes neither the record nor the data location of an inode that is still open, lists no
such inode as purged, and lists every inode at most once in the history, in the call that
removes its record. -/
theorem open_files_survive {cfg : Config} {es : List (Call × Reply)} {s : Server}
    (h : Trace (Server.exec cfg) (fun _ s c => c.onFiles = true ∧ c.KeepsOpen s)
      (Server.fresh cfg) es s) (c : Call) (hf : c.onFiles = true) (hk : c.KeepsOpen s) :
    OpenSafe es s c (s.exec cfg c).1 (s.exec cfg c).2 := by
  have hinv : Tracked es s := h.invariant Tracked (Tracked.fresh cfg)
    fun ht hok => ht.step cfg hok.1 hok.2
  exact hinv.safe cfg hf hk

/-- Opened, unlinked while open, released: the `release` purges the file. -/
theorem open_files_survive_deferred :
    let out₁ := (Server.fresh {}).exec {} (.createAndOpen 1 [97] 0o644 0 0 0)
    let out₂ := out₁.2.exec {} (.unlink 1 [97])
    let out₃ := out₂.2.exec {} (.release 2)
    purgedInodes (.release 2, out₃.1) = [2] ∧
      OpenSafe [(.createAndOpen 1 [97] 0o644 0 0 0, out₁.1), (.unlink 1 [97], out₂.1)] out₂.2
        (.release 2) out₃.1 out₃.2 := by
  intro out₁ out₂ out₃
  have h₁ : Trace (Server.exec {}) (fun _ s c => c.onFiles = true ∧ c.KeepsOpen s)
      (Server.fresh {}) _ out₁.2 :=
    .snoc (Call.createAndOpen 1 [97] 0o644 0 0 0) .nil
      ⟨rfl, show (Server.fresh {}).handles 2 + 1 < U32_SIZE by decide⟩
  have h₂ : Trace (Server.exec {}) (fun _ s c => c.onFiles = true ∧ c.KeepsOpen s)
      (Server.fresh {}) _ out₂.2 :=
    .snoc (Call.unlink 1 [97]) h₁ ⟨rfl, trivial⟩
  exact ⟨by decide, open_files_survive h₂ (.release 2) rfl trivial⟩

/-- `a` is created and opened, `b` renamed over it: inode 2 loses its record and data location and
is listed as purged with one open handle left. -/
theorem rename_purges_open_file :
    let s₁ := ((Server.fresh {}).exec {} (.createAndOpen 1 [97] 0o644 0 0 0)).2
    let s₂ := (s₁.exec {} (.create 1 [98] 0o644 0 0)).2
    let out := s₂.exec {} (.rename 1 [98] 1 [97])
    purgedInodes (.rename 1 [98] 1 [97], out.1) = [2] ∧
      unbalancedOpens [(.createAndOpen 1 [97] 0o644 0 0 0,
          ((Server.fresh {}).exec {} (.createAndOpen 1 [97] 0o644 0 0 0)).1),
        (.create 1 [98] 0o644 0 0, (s₁.exec {} (.create 1 [98] 0o644 0 0)).1),
        (.rename 1 [98] 1 [97], out.1)] 2 = 1 ∧
      (s₂.db.inode 2).isSome = true ∧ out.2.db.inode 2 = none ∧
      (s₂.db.dataLocations.get 2).isSome = true ∧ out.2.db.dataLocations.get 2 = none := by
  decide

end RucksFs
