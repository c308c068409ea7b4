import RucksFs.Lib.Trace
import RucksFs.Storage.Keys

/-!
# `RocksDeltaStore` (`storage/src/rocks.rs`)

The column family `delta_entries`, and one counter per inode in memory.  The number of a new delta comes from the
counter; after a restart the counters are read off the stored keys.

* `DeltaEvent.step` — completed operations: appends, numbers taken for a batch that is committed or abandoned, deletions
  of keys, `clear_deltas`, restarts.
* `logOf` — what was appended and not deleted, in the order of the appends.
* `Represents` — every stored number lies below its counter, and a scan is the log.
* `delta_store_faithful` — in every run with fewer than 2⁶⁴ numbers taken, a new number lies above all stored ones, and
  the scans return the log.
-/

set_option autoImplicit false

namespace RucksFs

structure RocksDeltaStore where
  /-- The column family `delta_entries`. -/
  cf : OrdMap (List Byte) (List Byte) := ∅
  /-- `seqs`: the next number of each inode that has a counter. -/
  seqs : U64 → Option U64 := fun _ => none

/-- `+ 1` on a `u64`. -/
def wrappingSucc (n : U64) : U64 := Fin.ofNat (2 ^ 64) (n.val + 1)

namespace RocksDeltaStore

/-- `next_seq`: a missing counter starts at 0. -/
def nextSeq (inode : U64) (st : RocksDeltaStore) : U64 × RocksDeltaStore :=
  let seq := (st.seqs inode).getD 0
  (seq, { st with seqs := Function.update st.seqs inode (some (wrappingSucc seq)) })

/-- The loop of `append_deltas`: the numbers, with the values they are for. -/
def assign (inode : U64) : List (List Byte) → RocksDeltaStore → List (U64 × List Byte) × RocksDeltaStore
  | [], st => ([], st)
  | v :: vs, st =>
      let r := nextSeq inode st
      let rest := assign inode vs r.2
      ((r.1, v) :: rest.1, rest.2)

/-- Write a batch of deltas of one inode. -/
def writeDeltas (inode : U64) (batch : List (U64 × List Byte)) (cf : OrdMap (List Byte) (List Byte)) :
    OrdMap (List Byte) (List Byte) :=
  batch.foldl (fun cf e => cf.put (encodeDeltaKey inode e.1) e.2) cf

def appendDeltas (inode : U64) (values : List (List Byte)) (st : RocksDeltaStore) : List U64 × RocksDeltaStore :=
  let r := assign inode values st
  (r.1.map Prod.fst, { r.2 with cf := writeDeltas inode r.1 r.2.cf })

def scanDeltas (inode : U64) (st : RocksDeltaStore) : List (List Byte) :=
  (st.cf.scanPrefix (deltaPrefix inode)).map Prod.snd

def scanDeltasWithKeys (inode : U64) (st : RocksDeltaStore) : List (List Byte × List Byte) :=
  st.cf.scanPrefix (deltaPrefix inode)

/-- A committed batch of `DeleteDelta` operations. -/
def deleteKeys (keys : List (List Byte)) (st : RocksDeltaStore) : RocksDeltaStore :=
  { st with cf := keys.foldl OrdMap.erase st.cf }

def clearDeltas (inode : U64) (st : RocksDeltaStore) : RocksDeltaStore :=
  let st' := deleteKeys ((st.cf.scanPrefix (deltaPrefix inode)).map Prod.fst) st
  { st' with seqs := if (st.seqs inode).isSome then Function.update st.seqs inode (some 0) else st.seqs }

/-- One key of the scan of `recover_seqs`: the greatest number of each inode so far. -/
def recordSeq (key : List Byte) (maxSeqs : U64 → Option U64) : U64 → Option U64 :=
  if key.length < 17 then maxSeqs
  else match decodeDeltaKey key with
    | .ok (inode, seq) =>
        Function.update maxSeqs inode (some (match maxSeqs inode with
          | some s => if s < seq then seq else s
          | none => seq))
    | .error _ => maxSeqs

/-- `recover_seqs`.  The iterator goes from the last key to the first. -/
def recoverSeqs (st : RocksDeltaStore) : RocksDeltaStore :=
  let maxSeqs := st.cf.toList.foldr (fun e acc => recordSeq e.1 acc) fun _ => none
  { st with seqs := fun inode =>
      match maxSeqs inode with
      | some s => some (wrappingSucc s)
      | none => st.seqs inode }

/-- `new` on the same database. -/
def restart (st : RocksDeltaStore) : RocksDeltaStore := recoverSeqs { cf := st.cf }

end RocksDeltaStore

open RocksDeltaStore

/-- A completed operation. -/
inductive DeltaEvent where
  | append (inode : U64) (values : List (List Byte))
  /-- `next_seq`, and a `PutDelta` of the number in a batch that is committed or not. -/
  | putDelta (inode : U64) (value : List Byte) (committed : Bool)
  | delete (keys : List (List Byte))
  | clear (inode : U64)
  | restart

namespace DeltaEvent

/-- The numbers it takes, and what it leaves. -/
def step : DeltaEvent → RocksDeltaStore → List U64 × RocksDeltaStore
  | .append i values, st => appendDeltas i values st
  | .putDelta i v committed, st =>
      let r := nextSeq i st
      ([r.1], if committed then { r.2 with cf := r.2.cf.put (encodeDeltaKey i r.1) v } else r.2)
  | .delete keys, st => ([], deleteKeys keys st)
  | .clear i, st => ([], clearDeltas i st)
  | .restart, st => ([], RocksDeltaStore.restart st)

/-- How many numbers it takes. -/
def takes : DeltaEvent → Nat
  | .append _ values => values.length
  | .putDelta .. => 1
  | _ => 0

/-- The inode that it takes numbers of. -/
def inode : DeltaEvent → Option U64
  | .append i _ | .putDelta i .. => some i
  | _ => none

end DeltaEvent

/-- Deltas of an inode in the order they were appended: number and value. -/
abbrev DeltaLog := U64 → List (U64 × List Byte)

/-- The log after one more operation that took the numbers `seqs`. -/
def DeltaLog.after (log : DeltaLog) : DeltaEvent × List U64 → DeltaLog
  | (.append i values, seqs) => Function.update log i (log i ++ seqs.zip values)
  | (.putDelta i v true, seqs) => Function.update log i (log i ++ seqs.zip [v])
  | (.putDelta _ _ false, _) => log
  | (.delete keys, _) => fun i => (log i).filter fun e => decide (encodeDeltaKey i e.1 ∉ keys)
  | (.clear i, _) => Function.update log i []
  | (.restart, _) => log

/-- What was appended and not deleted. -/
def logOf (es : List (DeltaEvent × List U64)) : DeltaLog := es.foldl DeltaLog.after fun _ => []

/-- How many numbers were taken. -/
def numbersTaken (es : List (DeltaEvent × List U64)) : Nat := (es.map fun e => e.1.takes).sum

/-! ## The invariant -/

/-- The column family that holds the deltas of `m`. -/
def deltasOnDisk (m : OrdMap (U64 ×ₗ U64) (List Byte)) : OrdMap (List Byte) (List Byte) :=
  m.image deltaKey strictMono_deltaKey id

theorem deltasOnDisk_put (m : OrdMap (U64 ×ₗ U64) (List Byte)) (k : U64 ×ₗ U64) (v : List Byte) :
    deltasOnDisk (m.put k v) = (deltasOnDisk m).put (deltaKey k) v := m.image_put k v

theorem deltasOnDisk_erase (m : OrdMap (U64 ×ₗ U64) (List Byte)) (k : U64 ×ₗ U64) :
    deltasOnDisk (m.erase k) = (deltasOnDisk m).erase (deltaKey k) := m.image_erase k

theorem get_deltasOnDisk (m : OrdMap (U64 ×ₗ U64) (List Byte)) (i q : U64) :
    (deltasOnDisk m).get (encodeDeltaKey i q) = m.get (toLex (i, q)) := by
  have hget : (deltasOnDisk m).get (encodeDeltaKey i q) = (m.get (toLex (i, q))).map id := m.get_image (toLex (i, q))
  rw [hget, Option.map_id_fun, id]

/-- The store holds `m`, which is the log `log`, and `n` numbers were taken. -/
structure Represents (log : DeltaLog) (n : Nat) (m : OrdMap (U64 ×ₗ U64) (List Byte)) (st : RocksDeltaStore) : Prop where
  cf : st.cf = deltasOnDisk m
  /-- Every stored number lies below the counter. -/
  below : ∀ {i q v}, m.get (toLex (i, q)) = some v → ∃ c, st.seqs i = some c ∧ q < c
  bounded : ∀ {i c}, st.seqs i = some c → c.val ≤ n
  slice : ∀ i, (m.slice i).toList = log i

namespace Represents

variable {log : DeltaLog} {n : Nat} {m : OrdMap (U64 ×ₗ U64) (List Byte)} {st : RocksDeltaStore}

theorem scan (h : Represents log n m st) (i : U64) :
    st.cf.scanPrefix (deltaPrefix i) = (log i).map fun e => (encodeDeltaKey i e.1, e.2) := by
  rw [h.cf, ← h.slice i]
  exact m.scanPrefix_image (deltaPrefix_iff i)

theorem val_wrappingSucc {c : U64} (h : c.val + 1 < 2 ^ 64) : (wrappingSucc c).val = c.val + 1 :=
  Nat.mod_eq_of_lt h

/-! ### Taking a number -/

theorem nextSeq_le (h : Represents log n m st) (i : U64) : (nextSeq i st).1.val ≤ n := by
  show ((st.seqs i).getD 0).val ≤ n
  cases hc : st.seqs i with
  | none => exact Nat.zero_le n
  | some c => exact h.bounded hc

/-- **A new number lies above the stored ones.** -/
theorem lt_nextSeq (h : Represents log n m st) {i q : U64} {v : List Byte} (hq : m.get (toLex (i, q)) = some v) :
    q < (nextSeq i st).1 := by
  obtain ⟨c, hc, hlt⟩ := h.below hq
  show q < (st.seqs i).getD 0
  rw [hc]
  exact hlt

theorem seqs_nextSeq (i j : U64) : (nextSeq i st).2.seqs j =
    if j = i then some (wrappingSucc (nextSeq i st).1) else st.seqs j :=
  Function.update_apply ..

theorem next (h : Represents log n m st) (hn : n + 1 < 2 ^ 64) (i : U64) :
    Represents log (n + 1) m (nextSeq i st).2 := by
  have hle := h.nextSeq_le i
  have hsucc : (wrappingSucc (nextSeq i st).1).val = (nextSeq i st).1.val + 1 := val_wrappingSucc (by omega)
  refine ⟨h.cf, ?_, ?_, h.slice⟩
  · intro j q v hq
    rw [seqs_nextSeq]
    by_cases hj : j = i
    · subst hj
      refine ⟨_, if_pos rfl, ?_⟩
      have hlt := h.lt_nextSeq hq
      rw [Fin.lt_def] at hlt ⊢
      omega
    · rw [if_neg hj]
      exact h.below hq
  · intro j c hc
    rw [seqs_nextSeq] at hc
    split at hc
    · cases hc
      omega
    · exact (h.bounded hc).trans (Nat.le_succ n)

/-! ### Writing a delta -/

/-- A number above the stored ones and below its counter. -/
theorem put (h : Represents log n m st) {i q : U64} (v : List Byte) (habove : ∀ {q' v'}, m.get (toLex (i, q')) = some v' → q' < q)
    (hcounter : ∃ c, st.seqs i = some c ∧ q < c) :
    Represents (Function.update log i (log i ++ [(q, v)])) n (m.put (toLex (i, q)) v)
      { st with cf := st.cf.put (encodeDeltaKey i q) v } := by
  refine ⟨?_, ?_, h.bounded, ?_⟩
  · show st.cf.put (encodeDeltaKey i q) v = _
    rw [h.cf, deltasOnDisk_put]
    rfl
  · intro j q' v' hq'
    rw [OrdMap.get_put] at hq'
    split at hq'
    · rename_i heq
      cases heq
      exact hcounter
    · exact h.below hq'
  · intro j
    by_cases hj : j = i
    · subst hj
      rw [Function.update_self, OrdMap.slice_put_self, OrdMap.toList_put_last, h.slice]
      intro q' v' hq'
      rw [OrdMap.get_slice] at hq'
      exact habove hq'
    · rw [Function.update_of_ne hj, OrdMap.slice_put_ne _ _ _ hj, h.slice]

/-- Take a number and write a delta under it. -/
theorem appendOne (h : Represents log n m st) (hn : n + 1 < 2 ^ 64) (i : U64) (v : List Byte) :
    Represents (Function.update log i (log i ++ [((nextSeq i st).1, v)])) (n + 1)
      (m.put (toLex (i, (nextSeq i st).1)) v)
      { (nextSeq i st).2 with cf := (nextSeq i st).2.cf.put (encodeDeltaKey i (nextSeq i st).1) v } := by
  apply (h.next hn i).put v h.lt_nextSeq
  refine ⟨wrappingSucc (nextSeq i st).1, ?_, ?_⟩
  · rw [seqs_nextSeq, if_pos rfl]
  · have hle := h.nextSeq_le i
    rw [Fin.lt_def, val_wrappingSucc (by omega)]
    omega

end Represents

theorem assign_cf (i : U64) (vs : List (List Byte)) : ∀ (st : RocksDeltaStore) (cf : OrdMap (List Byte) (List Byte)),
    assign i vs { st with cf := cf } = ((assign i vs st).1, { (assign i vs st).2 with cf := cf }) := by
  induction vs with
  | nil => exact fun _ _ => rfl
  | cons v vs ih =>
      intro st cf
      show (((nextSeq i st).1, v) :: (assign i vs { (nextSeq i st).2 with cf := cf }).1,
        (assign i vs { (nextSeq i st).2 with cf := cf }).2) = _
      rw [ih (nextSeq i st).2 cf]
      rfl

theorem cf_assign (i : U64) (vs : List (List Byte)) : ∀ st : RocksDeltaStore, (assign i vs st).2.cf = st.cf := by
  induction vs with
  | nil => exact fun _ => rfl
  | cons v vs ih => exact fun st => ih (nextSeq i st).2

/-- Appending is taking numbers and writing one after the other. -/
theorem appendDeltas_cons (i : U64) (v : List Byte) (vs : List (List Byte)) (st : RocksDeltaStore) :
    appendDeltas i (v :: vs) st =
      ((nextSeq i st).1 :: (appendDeltas i vs
        { (nextSeq i st).2 with cf := st.cf.put (encodeDeltaKey i (nextSeq i st).1) v }).1,
        (appendDeltas i vs { (nextSeq i st).2 with cf := st.cf.put (encodeDeltaKey i (nextSeq i st).1) v }).2) := by
  have hassign := assign_cf i vs (nextSeq i st).2 (st.cf.put (encodeDeltaKey i (nextSeq i st).1) v)
  have hcf : (assign i vs (nextSeq i st).2).2.cf = st.cf := cf_assign i vs (nextSeq i st).2
  unfold appendDeltas
  rw [hassign]
  show (_, RocksDeltaStore.mk (writeDeltas i (((nextSeq i st).1, v) :: (assign i vs (nextSeq i st).2).1)
    (assign i vs (nextSeq i st).2).2.cf) (assign i vs (nextSeq i st).2).2.seqs) = _
  rw [hcf]
  rfl

namespace Represents

variable {log : DeltaLog} {n : Nat} {m : OrdMap (U64 ×ₗ U64) (List Byte)} {st : RocksDeltaStore}

/-- **Appends.**  The numbers increase, lie above the stored ones, and the values come to the end of the log. -/
theorem append (i : U64) (vs : List (List Byte)) : ∀ {log n m st}, Represents log n m st → n + vs.length < 2 ^ 64 →
    (∃ m', Represents (Function.update log i (log i ++ (appendDeltas i vs st).1.zip vs)) (n + vs.length) m'
      (appendDeltas i vs st).2) ∧
    (appendDeltas i vs st).1.length = vs.length ∧ (appendDeltas i vs st).1.Pairwise (· < ·) ∧
    ∀ seq ∈ (appendDeltas i vs st).1, ∀ q v, m.get (toLex (i, q)) = some v → q < seq := by
  induction vs with
  | nil =>
      intro log n m st h _
      refine ⟨⟨m, ?_⟩, rfl, List.Pairwise.nil, fun seq hseq => by cases hseq⟩
      show Represents (Function.update log i (log i ++ [])) n m st
      rw [List.append_nil, Function.update_eq_self]
      exact h
  | cons v vs ih =>
      intro log n m st h hn
      rw [List.length_cons] at hn
      obtain ⟨⟨m', hm'⟩, hlen, hsorted, habove⟩ := ih (h.appendOne (by omega) i v) (by omega)
      rw [appendDeltas_cons]
      refine ⟨⟨m', ?_⟩, ?_, ?_, ?_⟩
      · have hlog : ∀ seqs : List U64, Function.update (Function.update log i (log i ++ [((nextSeq i st).1, v)])) i
            (Function.update log i (log i ++ [((nextSeq i st).1, v)]) i ++ seqs.zip vs) =
            Function.update log i (log i ++ ((nextSeq i st).1 :: seqs).zip (v :: vs)) := by
          intro seqs
          rw [Function.update_idem, Function.update_self, List.append_assoc]
          rfl
        have hcount : n + 1 + vs.length = n + (v :: vs).length := by
          rw [List.length_cons]
          omega
        rw [hlog, hcount] at hm'
        exact hm'
      · exact congrArg Nat.succ hlen
      · refine List.pairwise_cons.2 ⟨fun seq hseq => ?_, hsorted⟩
        exact habove seq hseq _ v (OrdMap.get_put_self ..)
      · intro seq hseq q w hq
        rcases List.mem_cons.1 hseq with rfl | hseq
        · exact h.lt_nextSeq hq
        · by_cases heq : q = (nextSeq i st).1
          · subst heq
            exact habove seq hseq _ v (OrdMap.get_put_self ..)
          · refine habove seq hseq q w ?_
            rw [OrdMap.get_put_ne]
            · exact hq
            · intro hkey
              exact heq (Prod.ext_iff.1 (toLex.injective hkey)).2

/-! ### Deletions -/

/-- One key of any form. -/
theorem eraseKey (h : Represents log n m st) (key : List Byte) :
    ∃ m', Represents (fun i => (log i).filter fun e => decide (encodeDeltaKey i e.1 ≠ key)) n m'
      { st with cf := st.cf.erase key } := by
  by_cases hkey : ∃ k, deltaKey k = key
  · obtain ⟨k, rfl⟩ := hkey
    refine ⟨m.erase k, ?_, ?_, h.bounded, ?_⟩
    · rw [deltasOnDisk_erase, ← h.cf]
    · intro i q v hq
      rw [OrdMap.get_erase] at hq
      split at hq
      · cases hq
      · exact h.below hq
    · intro i
      have hiff : ∀ q, toLex (i, q) ≠ k ↔ encodeDeltaKey i q ≠ deltaKey k := fun q =>
        (not_congr (strictMono_deltaKey.injective.eq_iff (a := toLex (i, q)) (b := k))).symm
      have hslice := m.toList_slice_erase (ofLex k).1 i (ofLex k).2
      rw [h.slice] at hslice
      refine hslice.trans ?_
      apply List.filter_congr
      intro e _
      exact decide_eq_decide.2 (hiff e.1)
  · have hnone : st.cf.get key = none := by
      rw [h.cf]
      exact m.get_image_of_not fun k hk => hkey ⟨k, hk⟩
    have hlog : (fun i => (log i).filter fun e => decide (encodeDeltaKey i e.1 ≠ key)) = log := by
      funext i
      apply List.filter_eq_self.2
      intro e _
      exact decide_eq_true fun heq => hkey ⟨toLex (i, e.1), heq⟩
    rw [hlog, OrdMap.erase_of_get_none hnone]
    exact ⟨m, h⟩

theorem deleteKeys (keys : List (List Byte)) : ∀ {log m st}, Represents log n m st →
    ∃ m', Represents (fun i => (log i).filter fun e => decide (encodeDeltaKey i e.1 ∉ keys)) n m'
      (RocksDeltaStore.deleteKeys keys st) := by
  induction keys with
  | nil =>
      intro log m st h
      have hlog : (fun i => (log i).filter fun e => decide (encodeDeltaKey i e.1 ∉ ([] : List (List Byte)))) = log := by
        funext i
        simp
      rw [hlog]
      exact ⟨m, h⟩
  | cons key keys ih =>
      intro log m st h
      obtain ⟨m₁, h₁⟩ := h.eraseKey key
      obtain ⟨m₂, h₂⟩ := ih h₁
      have hlog : (fun i => (log i).filter fun e => decide (encodeDeltaKey i e.1 ∉ key :: keys)) =
          fun i => ((log i).filter fun e => decide (encodeDeltaKey i e.1 ≠ key)).filter fun e =>
            decide (encodeDeltaKey i e.1 ∉ keys) := by
        funext i
        rw [List.filter_filter]
        apply List.filter_congr
        intro e _
        simp [List.mem_cons, Bool.and_comm]
      rw [hlog]
      exact ⟨m₂, h₂⟩

theorem clear (h : Represents log n m st) (i : U64) :
    ∃ m', Represents (Function.update log i []) n m' (clearDeltas i st) := by
  obtain ⟨m', hm'⟩ := h.deleteKeys ((st.cf.scanPrefix (deltaPrefix i)).map Prod.fst)
  have hkeys : ∀ j q, encodeDeltaKey j q ∈ (st.cf.scanPrefix (deltaPrefix i)).map Prod.fst ↔
      j = i ∧ ∃ v, (q, v) ∈ log i := by
    intro j q
    rw [h.scan, List.map_map, List.mem_map]
    constructor
    · rintro ⟨e, he, heq⟩
      have hpair : toLex (i, e.1) = toLex (j, q) := strictMono_deltaKey.injective heq
      obtain ⟨rfl, rfl⟩ := Prod.ext_iff.1 (toLex.injective hpair)
      exact ⟨rfl, e.2, he⟩
    · rintro ⟨rfl, v, hv⟩
      exact ⟨(q, v), hv, rfl⟩
  have hlog : (fun j => (log j).filter fun e =>
      decide (encodeDeltaKey j e.1 ∉ (st.cf.scanPrefix (deltaPrefix i)).map Prod.fst)) = Function.update log i [] := by
    funext j
    by_cases hj : j = i
    · subst hj
      rw [Function.update_self, List.filter_eq_nil_iff]
      intro e he
      simpa [hkeys] using ⟨e.2, he⟩
    · rw [Function.update_of_ne hj, List.filter_eq_self]
      intro e _
      simp [hkeys, hj]
  rw [hlog] at hm'
  refine ⟨m', hm'.cf, ?_, ?_, hm'.slice⟩
  · intro j q v hq
    have hj : j ≠ i := by
      rintro rfl
      have hempty := hm'.slice j
      rw [Function.update_self] at hempty
      rw [← OrdMap.get_slice, OrdMap.toList_eq_nil.1 hempty] at hq
      cases hq
    obtain ⟨c, hc, hlt⟩ := hm'.below hq
    refine ⟨c, ?_, hlt⟩
    show (if (st.seqs i).isSome then Function.update st.seqs i (some 0) else st.seqs) j = some c
    split
    · rw [Function.update_of_ne hj]
      exact hc
    · exact hc
  · intro j c hc
    have hc' : (if (st.seqs i).isSome then Function.update st.seqs i (some 0) else st.seqs) j = some c := hc
    split at hc'
    · rw [Function.update_apply] at hc'
      split at hc'
      · cases hc'
        exact Nat.zero_le n
      · exact h.bounded hc'
    · exact h.bounded hc'

end Represents

/-! ### Restarts -/

theorem recordSeq_encode (i q : U64) (acc : U64 → Option U64) :
    recordSeq (encodeDeltaKey i q) acc = Function.update acc i (some (match acc i with
      | some s => if s < q then q else s
      | none => q)) := by
  unfold recordSeq
  rw [if_neg (by rw [length_encodeDeltaKey]; decide), decodeDeltaKey_encode]

/-- The greatest number of each inode: a stored one, and above all others. -/
theorem maxSeqs_spec (l : List ((U64 ×ₗ U64) × List Byte)) :
    (∀ i s, (l.map fun e => (deltaKey e.1, e.2)).foldr (fun e acc => recordSeq e.1 acc) (fun _ => none) i = some s →
      ∃ v, (toLex (i, s), v) ∈ l) ∧
    ∀ i q v, (toLex (i, q), v) ∈ l →
      ∃ s, (l.map fun e => (deltaKey e.1, e.2)).foldr (fun e acc => recordSeq e.1 acc) (fun _ => none) i = some s ∧
        q ≤ s := by
  induction l with
  | nil =>
      refine ⟨fun i s h => ?_, fun i q v h => ?_⟩
      · cases h
      · cases h
  | cons e l ih =>
      obtain ⟨⟨j, p⟩, w⟩ := e
      obtain ⟨hmem, hmax⟩ := ih
      rw [List.map_cons, List.foldr_cons]
      generalize (l.map fun e => (deltaKey e.1, e.2)).foldr (fun e acc => recordSeq e.1 acc) (fun _ => none) = acc
        at hmem hmax ⊢
      have hrec : recordSeq (deltaKey (j, p)) acc = Function.update acc j (some (match acc j with
          | some s => if s < p then p else s
          | none => p)) := recordSeq_encode j p acc
      constructor
      · intro i s hs
        rw [hrec, Function.update_apply] at hs
        split at hs
        · rename_i hi
          subst hi
          cases hacc : acc i with
          | none =>
              rw [hacc] at hs
              cases hs
              exact ⟨w, List.mem_cons_self⟩
          | some t =>
              rw [hacc] at hs
              dsimp only at hs
              split at hs
              · cases hs
                exact ⟨w, List.mem_cons_self⟩
              · cases hs
                obtain ⟨v, hv⟩ := hmem i _ hacc
                exact ⟨v, List.mem_cons_of_mem _ hv⟩
        · obtain ⟨v, hv⟩ := hmem i s hs
          exact ⟨v, List.mem_cons_of_mem _ hv⟩
      · intro i q v hq
        rw [hrec, Function.update_apply]
        split
        · rename_i hi
          subst hi
          refine ⟨_, rfl, ?_⟩
          rcases List.mem_cons.1 hq with heq | hq
          · obtain ⟨hkey, -⟩ := Prod.mk.inj heq
            have hqp : q = p := (Prod.mk.inj hkey).2
            subst hqp
            cases acc i with
            | none => exact le_refl q
            | some t =>
                dsimp only
                split
                · exact le_refl q
                · rename_i hlt
                  exact not_lt.1 hlt
          · obtain ⟨t, hacc, hle⟩ := hmax i q v hq
            rw [hacc]
            dsimp only
            split
            · rename_i hlt
              exact hle.trans hlt.le
            · exact hle
        · rename_i hi
          rcases List.mem_cons.1 hq with heq | hq
          · obtain ⟨hkey, -⟩ := Prod.mk.inj heq
            exact absurd (Prod.mk.inj hkey).1 hi
          · exact hmax i q v hq

namespace Represents

variable {log : DeltaLog} {n : Nat} {m : OrdMap (U64 ×ₗ U64) (List Byte)} {st : RocksDeltaStore}

/-- The counters are read off the stored keys. -/
theorem restart (h : Represents log n m st) (hn : n < 2 ^ 64) : Represents log n m (RocksDeltaStore.restart st) := by
  obtain ⟨hmem, hmax⟩ := maxSeqs_spec m.toList
  have hlist : st.cf.toList = m.toList.map fun e => (deltaKey e.1, e.2) := by
    rw [h.cf]
    rfl
  have hseqs : ∀ i, (RocksDeltaStore.restart st).seqs i =
      match (m.toList.map fun e => (deltaKey e.1, e.2)).foldr (fun e acc => recordSeq e.1 acc) (fun _ => none) i with
      | some s => some (wrappingSucc s)
      | none => none := by
    intro i
    rw [← hlist]
    rfl
  -- a stored number lies below a counter that was there before
  have hstored : ∀ {i s v}, m.get (toLex (i, s)) = some v → s.val + 1 ≤ n := by
    intro i s v hs
    obtain ⟨c, hc, hlt⟩ := h.below hs
    have hle := h.bounded hc
    rw [Fin.lt_def] at hlt
    omega
  refine ⟨h.cf, ?_, ?_, h.slice⟩
  · intro i q v hq
    obtain ⟨s, hs, hle⟩ := hmax i q v (OrdMap.mem_toList.2 hq)
    obtain ⟨w, hw⟩ := hmem i s hs
    have hbound := hstored (OrdMap.mem_toList.1 hw)
    refine ⟨wrappingSucc s, ?_, ?_⟩
    · rw [hseqs, hs]
    · rw [Fin.le_def] at hle
      rw [Fin.lt_def, val_wrappingSucc (by omega)]
      omega
  · intro i c hc
    rw [hseqs] at hc
    split at hc
    · rename_i s hs
      cases hc
      obtain ⟨w, hw⟩ := hmem i s hs
      have hbound := hstored (OrdMap.mem_toList.1 hw)
      rw [val_wrappingSucc (by omega)]
      exact hbound
    · cases hc

/-! ### Runs -/

/-- One operation. -/
theorem step (h : Represents log n m st) (ev : DeltaEvent) (hn : n + ev.takes < 2 ^ 64) :
    ∃ m', Represents (log.after (ev, (ev.step st).1)) (n + ev.takes) m' (ev.step st).2 := by
  cases ev with
  | append i vs => exact (append i vs h hn).1
  | putDelta i v committed =>
      cases committed with
      | false => exact ⟨m, h.next hn i⟩
      | true => exact ⟨_, h.appendOne hn i v⟩
  | delete keys => exact h.deleteKeys keys
  | clear i => exact h.clear i
  | restart => exact ⟨m, h.restart hn⟩

end Represents

theorem represents_start : Represents (fun _ => []) 0 ∅ {} where
  cf := rfl
  below := by
    intro i q v h
    cases h
  bounded := by
    intro i c h
    cases h
  slice _ := rfl

/-- Fewer than 2⁶⁴ numbers are taken. -/
def fewNumbers (es : List (DeltaEvent × List U64)) (_ : RocksDeltaStore) (ev : DeltaEvent) : Prop :=
  numbersTaken es + ev.takes < 2 ^ 64

theorem represents_of_trace {es : List (DeltaEvent × List U64)} {st : RocksDeltaStore}
    (h : Trace DeltaEvent.step fewNumbers {} es st) : ∃ m, Represents (logOf es) (numbersTaken es) m st := by
  refine h.invariant (fun es st => ∃ m, Represents (logOf es) (numbersTaken es) m st) ⟨∅, represents_start⟩ ?_
  rintro es st ev ⟨m, hm⟩ hok
  have hlog : logOf (es ++ [(ev, (ev.step st).1)]) = (logOf es).after (ev, (ev.step st).1) := List.foldl_append ..
  have htaken : numbersTaken (es ++ [(ev, (ev.step st).1)]) = numbersTaken es + ev.takes := by
    simp [numbersTaken]
  rw [hlog, htaken]
  exact hm.step ev hok

/-- **The delta store is faithful.**  In every run with fewer than 2⁶⁴ numbers taken, scans return exactly the deltas of
their inode that were appended and not deleted, in the order of the appends; and the numbers that an operation takes
for an inode increase and lie above the number of every delta that is stored for it. -/
theorem delta_store_faithful {es : List (DeltaEvent × List U64)} {st : RocksDeltaStore}
    (h : Trace DeltaEvent.step fewNumbers {} es st) :
    (∀ i, scanDeltasWithKeys i st = (logOf es i).map fun e => (encodeDeltaKey i e.1, e.2)) ∧
      (∀ i, scanDeltas i st = (logOf es i).map Prod.snd) ∧
      ∀ ev i, fewNumbers es st ev → ev.inode = some i →
        (ev.step st).1.length = ev.takes ∧ (ev.step st).1.Pairwise (· < ·) ∧
          ∀ seq ∈ (ev.step st).1, ∀ q, (st.cf.get (encodeDeltaKey i q)).isSome = true → q < seq := by
  obtain ⟨m, hm⟩ := represents_of_trace h
  refine ⟨hm.scan, fun i => ?_, fun ev i hev hi => ?_⟩
  · unfold scanDeltas
    rw [hm.scan, List.map_map]
    rfl
  · have hstored : ∀ {q}, (st.cf.get (encodeDeltaKey i q)).isSome = true → ∃ v, m.get (toLex (i, q)) = some v := by
      intro q hq
      rw [hm.cf, get_deltasOnDisk] at hq
      exact Option.isSome_iff_exists.1 hq
    cases ev with
    | append j vs =>
        cases hi
        obtain ⟨-, hlen, hsorted, habove⟩ := Represents.append i vs hm hev
        refine ⟨hlen, hsorted, fun seq hseq q hq => ?_⟩
        obtain ⟨v, hv⟩ := hstored hq
        exact habove seq hseq q v hv
    | putDelta j v committed =>
        cases hi
        refine ⟨rfl, List.pairwise_singleton _ _, fun seq hseq q hq => ?_⟩
        obtain ⟨w, hw⟩ := hstored hq
        rw [List.mem_singleton.1 hseq]
        exact hm.lt_nextSeq hw
    | delete keys => cases hi
    | clear j => cases hi
    | restart => cases hi

/-- The history of some operations on an empty store, and the store they leave. -/
def deltaRun (evs : List DeltaEvent) : List (DeltaEvent × List U64) × RocksDeltaStore :=
  evs.foldl (fun r ev => (r.1 ++ [(ev, (ev.step r.2).1)], (ev.step r.2).2)) ([], {})

/-- Two deltas, an abandoned one, a restart and a third delta. -/
theorem delta_store_faithful_restarted :
    let run := deltaRun [.append 5 [[1], [2]], .putDelta 5 [9] false, .restart, .append 5 [[3]]]
    run.1.map Prod.snd = [[0, 1], [2], [], [2]] ∧ scanDeltas 5 run.2 = [[1], [2], [3]] := by
  have h : Trace DeltaEvent.step fewNumbers {}
      (deltaRun [.append 5 [[1], [2]], .putDelta 5 [9] false, .restart, .append 5 [[3]]]).1
      (deltaRun [.append 5 [[1], [2]], .putDelta 5 [9] false, .restart, .append 5 [[3]]]).2 :=
    .snoc (DeltaEvent.append 5 [[3]]) (.snoc DeltaEvent.restart (.snoc (DeltaEvent.putDelta 5 [9] false)
      (.snoc (DeltaEvent.append 5 [[1], [2]]) .nil (by show _ < _; decide)) (by show _ < _; decide))
      (by show _ < _; decide)) (by show _ < _; decide)
  refine ⟨by decide +kernel, ?_⟩
  rw [(delta_store_faithful h).2.1 5]
  decide +kernel

end RucksFs
